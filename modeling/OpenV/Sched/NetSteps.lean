import OpenV.Sched.Net

/- The steps of the rendezvous protocol keep its books: one lemma for each kind
   of step, `NetInv.step` for all of them. -/
namespace OpenV.Sched
open Net List
open IpcState (receives receivesReply)

section Phases
variable {i : IpcState}

theorem deposited_receives {p s : Pid} (h : i.receives s = true ∨ i.receivesReply s = true) : i.deposited p = [] := by
  cases i <;> first | rfl | simp [receives, receivesReply] at h

theorem target_receives {s : Pid} (h : i.receives s = true ∨ i.receivesReply s = true) : i.target = none := by
  cases i <;> first | rfl | simp [receives, receivesReply] at h

theorem waiting_of_target {t : Pid} (h : i.target = none) : i.waiting t = [] := by
  cases i <;> first | rfl | cases h

end Phases

section Solo
variable {n n' : Net} {me : Pid} {a a' : Node} {es : List Event} {m : Message}

/-- A step that changes one process, whose queue stays and which waits for nobody. -/
theorem NetInv.solo (hn : NetInv n) (ht : Turns n n' me me a a' a a' es) (hs : a'.senders = a.senders)
    (hg : a.ipc.target = none) (hg' : a'.ipc.target = none) (hone : es.length ≤ 1)
    (hphase : Phase n'.log (n'.awake me) me a'.ipc a'.again)
    (hheld : ∀ m src ptr, a.ipc = .messageAvailable m → a.again = some (.receive src ptr) →
      ∃ f, es = [.received me f m]) (hreply : ∀ t ptr, a'.ipc ≠ .receivingReply t ptr)
    (hpat : ∀ src ptr, a'.ipc = .receiving src ptr → ∀ s ∈ a'.senders, accepts src s = false)
    (hbooks : ∀ p, a.ipc.deposited p = gotBy es p me ++ a'.ipc.deposited p) (hsent : ∀ p q m, .sent p q m ∉ es)
    (hgot : ∀ p q, q ≠ me → gotBy es p q = []) (hfair : ∀ e ∈ es, e.Fair n.log) : NetInv n' := by
  have hsame : ∀ {β : Type} {d : β} {f : Node → β} {q}, f a' = f a → n'.view d f q = n.view d f q :=
    fun e => ht.view (fun _ => e) fun _ => e
  have hask : ∀ t ptr, a'.ipc = .receivingReply t ptr → n'.Asked me t := fun t ptr e => absurd e (hreply t ptr)
  refine ht.inv hn hone hphase hphase
    (hn.index.congr (funext fun q => hsame hs) (funext fun q => hsame (hg'.trans hg.symm)))
    (fun t m hme hh => ?_) hask hask hpat hpat (fun p q => ?_) hfair
  · obtain ⟨b, src, ptr, hb, hbi, hba⟩ := hh
    obtain rfl : t = me := hme.elim id id
    rw [ht.me_old] at hb
    cases hb
    exact .inr (hheld m src ptr hbi hba)
  · have hs0 : sentTo es p q = [] := by
      refine filterMap_eq_nil_iff.mpr fun e he => ?_
      cases e with
      | sent p' q' m => exact absurd he (hsent p' q' m)
      | _ => rfl
    have hw : n'.waiting p q = n.waiting p q := hsame (by rw [waiting_of_target hg, waiting_of_target hg'])
    rw [hs0, append_nil, inFlight, inFlight, hw, ← append_assoc]
    congr 1
    by_cases hq : q = me
    · subst hq
      rw [deposited, deposited, view_of ht.me_old, view_of ht.me_new]
      exact hbooks p
    · rw [hgot p q hq]
      exact (ht.view (absurd · hq) (absurd · hq)).symm

variable {dest f src : Pid} {ptr : Nat} {e : Event}

theorem NetInv.finish (hn : NetInv n) (h : n.Ready me (.send dest ptr) a) (hi : a.ipc = .sendComplete) :
    NetInv (n.put me { a with ipc := .none, again := none }) := by
  refine hn.solo ⟨⟨fun q hq _ => nodes_put_of_ne hq, fun _ _ _ => Iff.rfl, (append_nil _).symm, nofun⟩,
    h.node, h.node, nodes_put_self, nodes_put_self⟩ rfl (by rw [hi]; rfl) rfl (Nat.zero_le 1) .idle
    (fun m src ptr e => ?_) nofun nofun (fun p => by rw [hi]; rfl) nofun (fun _ _ _ => rfl) nofun
  rw [hi] at e
  cases e

theorem gotBy_one {p q : Pid} (he : e = .received me f m ∨ e = .replied me f m) :
    gotBy [e] p q = if me = q ∧ m.source = p then [m] else [] := by
  unfold gotBy
  by_cases h : me = q ∧ m.source = p
  · rcases he with rfl | rfl <;> simp [Event.gotFrom, h]
  · rcases he with rfl | rfl <;> simp [Event.gotFrom, h]

/-- A call returns the message in the state word. -/
theorem NetInv.returned (hn : NetInv n) (ha : n.nodes me = some a) (hi : a.ipc = .messageAvailable m)
    (he : e = .received me f m ∨ e = .replied me f m)
    (hheld : ∀ src ptr, a.again = some (.receive src ptr) → e = .received me f m) (hfair : e.Fair n.log) :
    NetInv ((n.put me { a with ipc := .none, again := none }).record e) := by
  have hactor : e.actor = me := by rcases he with rfl | rfl <;> rfl
  refine hn.solo ⟨⟨fun q hq _ => nodes_put_of_ne hq, fun _ _ _ => Iff.rfl, rfl, forall_mem_singleton.mpr hactor⟩,
    ha, ha, nodes_put_self, nodes_put_self⟩ rfl (by rw [hi]; rfl) rfl le_rfl .idle (fun m' s' p' e' ea => ?_) nofun
    nofun (fun p => ?_) (fun p q m' hm => ?_) (fun p q hq => ?_) (forall_mem_singleton.mpr hfair)
  · rw [hi] at e'
    cases e'
    exact ⟨f, congrArg (fun e => [e]) (hheld s' p' ea)⟩
  · rw [hi, gotBy_one he]
    simp only [IpcState.deposited, true_and, append_nil]
  · rcases he with rfl | rfl <;> cases mem_singleton.mp hm
  · rw [gotBy_one he, if_neg fun e => hq e.1.symm]

/-- What is in the state word is for the call that is being made. -/
theorem Net.Ready.held {call : Call} (hn : NetInv n) (h : n.Ready me call a) (hi : a.ipc = .messageAvailable m) :
    a.again = some call ∧ Phase n.log (n.awake me) me (.messageAvailable m) (some call) := by
  have hph := hn.phase me a h.node
  rw [hi] at hph
  rcases h.next with e | e
  · rw [e] at hph
    cases hph
  · exact ⟨e, e ▸ hph⟩

theorem NetInv.take (hn : NetInv n) (h : n.Ready me (.receive src ptr) a) (hi : a.ipc = .messageAvailable m) :
    NetInv ((n.put me { a with ipc := .none, again := none }).record (.received me src m)) := by
  refine hn.returned h.node hi (.inl rfl) (fun _ _ _ => rfl) ?_
  cases (h.held hn hi).2 with
  | received hw ha => exact ha

theorem NetInv.reply (hn : NetInv n) (h : n.Ready me (.sendrec dest ptr) a) (hi : a.ipc = .messageAvailable m) :
    NetInv ((n.put me { a with ipc := .none, again := none }).record (.replied me dest m)) := by
  obtain ⟨hag, hph⟩ := h.held hn hi
  refine hn.returned h.node hi (.inr rfl) (fun src ptr e => ?_) ?_
  · rw [hag] at e
    cases e
  · cases hph with
    | replied hw ha => exact ha

theorem NetInv.sleep (hn : NetInv n) (h : n.Ready me (.receive src ptr) a) (hi : a.ipc = .none)
    (hs : ∀ q ∈ a.senders, accepts src q = false) :
    NetInv ((n.put me { a with ipc := .receiving src ptr, again := some (.receive src ptr) }).rest me) := by
  refine hn.solo ⟨⟨fun q hq _ => nodes_put_of_ne hq, fun q hq _ => and_iff_right hq, (append_nil _).symm, nofun⟩,
    h.node, h.node, nodes_put_self, nodes_put_self⟩ rfl (by rw [hi]; rfl) rfl (Nat.zero_le 1)
    (.receiving fun e => e.1 rfl) (fun m s p e => ?_) nofun (fun _ _ e => ?_) (fun p => by rw [hi]; rfl) nofun
    (fun _ _ _ => rfl) nofun
  · rw [hi] at e
    cases e
  · cases e
    exact hs

end Solo

section Pair
variable {n n' : Net} {me dest sender src : Pid} {a b : Node} {m : Message} {ptr : Nat}
variable {p q : Pid}

theorem gotBy_sent {d : Pid} : gotBy [.sent me d m] p q = [] := rfl

theorem sentTo_sent : sentTo [.sent me dest m] p q = if p = me ∧ q = dest then [m] else [] := by
  unfold sentTo
  by_cases h : p = me ∧ q = dest
  · rw [h.1, h.2]
    simp [Event.sentFromTo]
  · rw [if_neg h]
    have h' : ¬(me = p ∧ dest = q) := fun e => h ⟨e.1.symm, e.2.symm⟩
    simp [Event.sentFromTo, h']

theorem ne_any (hn : NetInv n) (h : n.nodes q = some a) : q ≠ -1 := by
  intro e
  rw [e, hn.any] at h
  cases h

/-- Nobody waits to be received by a process that has just called, unless it is a receive. -/
theorem not_holds_of (h : n.nodes me = some a) (hi : ∀ m, a.ipc ≠ .messageAvailable m) : ¬n.Holds me m := by
  rintro ⟨b, _, _, hb, hbi, -⟩
  rw [h] at hb
  cases hb
  exact hi m hbi

/-- The process that a message is given to: it was waiting for it in a receive, or in a sendrec after its request was
received. -/
theorem Phase.given {w' : Prop} (hn : NetInv n) (hb : n.nodes dest = some b) (hme : n.nodes me = some a)
    (hi : a.ipc = .none) (hne : dest ≠ me) (hm : m.source = me) (hw : w')
    (hr : b.ipc.receives me = true ∨ b.ipc.receivesReply me = true) :
    Phase (n.log ++ [.sent me dest m]) w' dest (.messageAvailable m) b.again := by
  have hph := hn.phase dest b hb
  have hask := hn.asked dest b
  generalize b.again = c at hph
  generalize b.ipc = i at hph hr hask
  cases hph with
  | receiving hs =>
    refine .received hw ?_
    rw [hm]
    simpa [receives, receivesReply] using hr
  | receivingReply hs ht =>
    rename_i t ptr
    have hacc : accepts t me = true := by simpa [receives, receivesReply] using hr
    have htm : t = me := by simpa [accepts, ht] using hacc
    subst htm
    have hheard : Heard n.log dest t := by
      rcases hask t ptr hb rfl with h | ⟨m', -, h⟩
      · exact h
      · exact absurd h (not_holds_of hme (by rw [hi]; exact nofun))
    have := hheard.answered (m := m) hne.symm
    subst hm
    exact .replied hw this
  | _ => simp [receives, receivesReply] at hr

/-- What is sent directly lands in the state word. -/
theorem inFlight_deposit {a' : Node}
    (ht : Turns n n' me dest a a' b { b with ipc := .messageAvailable m } [.sent me dest m]) (hi : a.ipc = .none)
    (hr : b.ipc.receives me = true ∨ b.ipc.receivesReply me = true) (hm : m.source = me) (hg : a'.ipc.target = none)
    (hdep : ∀ p, a'.ipc.deposited p = []) :
    n.inFlight p q ++ sentTo [.sent me dest m] p q = gotBy [.sent me dest m] p q ++ n'.inFlight p q := by
  have hwait : n'.waiting p q = n.waiting p q := by
    refine ht.view (fun _ => ?_) fun _ => (waiting_of_target (target_receives hr)).symm
    rw [waiting_of_target hg, hi]
    rfl
  rw [gotBy_sent, sentTo_sent, inFlight, inFlight, hwait]
  by_cases hq : q = dest
  · subst hq
    have h0 : n.deposited p q = [] := (view_of ht.o_old).trans (deposited_receives hr)
    have h1 : n'.deposited p q = (IpcState.messageAvailable m).deposited p := view_of ht.o_new
    rw [h0, h1]
    by_cases hp : p = me
    · subst hp
      have hw : n.waiting p q = [] := (view_of ht.me_old).trans (by rw [hi]; rfl)
      simp [hw, IpcState.deposited, hm]
    · have hp' : ¬me = p := fun e => hp e.symm
      simp [hp, IpcState.deposited, hm, hp']
  · have h1 : n'.deposited p q = n.deposited p q := ht.view (fun _ => by rw [hdep, hi]; rfl) (absurd · hq)
    simp [hq, h1]

section
variable (hn : NetInv n)
include hn

/-- A message is given to a process that waits for it; the sender goes on, or waits for the reply. -/
theorem NetInv.given {a' : Node}
    (ht : Turns n n' me dest a a' b { b with ipc := .messageAvailable m } [.sent me dest m]) (hi : a.ipc = .none)
    (hne : dest ≠ me) (hm : m.source = me) (hr : b.ipc.receives me = true ∨ b.ipc.receivesReply me = true)
    (hw : n'.awake dest) (hs : a'.senders = a.senders) (hg : a'.ipc.target = none)
    (hdep : ∀ p, a'.ipc.deposited p = []) (hphase : Phase n'.log (n'.awake me) me a'.ipc a'.again)
    (hask : ∀ t ptr, a'.ipc = .receivingReply t ptr → t = dest ∧ b.ipc.receives me = true)
    (hrec : ∀ src ptr, a'.ipc ≠ .receiving src ptr) : NetInv n' := by
  have hgiven : Phase n'.log (n'.awake dest) dest (.messageAvailable m) b.again :=
    ht.log ▸ Phase.given hn ht.o_old ht.me_old hi hne hm hw hr
  have hindex : Indexed n'.senders n'.target := by
    refine hn.index.congr (funext fun q => ht.view (fun _ => hs) fun _ => rfl) (funext fun q => ?_)
    refine ht.view (fun _ => ?_) fun _ => (target_receives hr).symm
    rw [hg, hi]
    rfl
  refine ht.inv hn le_rfl hphase hgiven hindex (fun t m' hto hh => ?_) (fun t ptr hci => ?_) nofun
    (fun src ptr e => absurd e (hrec src ptr)) nofun (fun p q => inFlight_deposit ht hi hr hm hg hdep)
    (forall_mem_singleton.mpr hm)
  · rcases hto with rfl | rfl
    · exact absurd hh (not_holds_of ht.me_old (by rw [hi]; exact nofun))
    · refine absurd hh (not_holds_of ht.o_old fun m'' e => ?_)
      rw [e] at hr
      simp [receives, receivesReply] at hr
  · obtain ⟨rfl, hrm⟩ := hask t ptr hci
    -- the request is where the target will find it when it makes its call again
    have hagain : ∃ src ptr, b.again = some (.receive src ptr) := by
      have hph := hn.phase t b ht.o_old
      generalize b.again = c at hph
      generalize b.ipc = i at hph hrm
      cases hph with
      | receiving _ => exact ⟨_, _, rfl⟩
      | _ => simp [receives] at hrm
    obtain ⟨src, ptr', hagain⟩ := hagain
    exact .inr ⟨m, ht.log ▸ Open.sent n.log me t m, _, src, ptr', ht.o_new, rfl, hagain⟩

theorem NetInv.deliver (h : n.Ready me (.send dest ptr) a) (hi : a.ipc = .none) (hne : dest ≠ me) (hm : m.source = me)
    (hb : n.nodes dest = some b) (hr : b.ipc.receives me = true ∨ b.ipc.receivesReply me = true) :
    NetInv ((((n.put me { a with again := none }).put dest { b with ipc := .messageAvailable m }).wake dest).record
      (.sent me dest m)) := by
  obtain ⟨ipc, again, senders⟩ := a
  obtain rfl : ipc = .none := hi
  exact hn.given ⟨⟨fun q h1 h2 => (nodes_put_of_ne h2).trans (nodes_put_of_ne h1), fun q _ h2 => or_iff_right h2, rfl,
      forall_mem_singleton.mpr rfl⟩, h.node, hb, (nodes_put_of_ne hne.symm).trans nodes_put_self,
      nodes_put_self⟩ rfl hne hm hr (.inl rfl) rfl rfl (fun p => rfl) .idle nofun nofun

theorem NetInv.ask (h : n.Ready me (.sendrec dest ptr) a) (hi : a.ipc = .none) (hne : dest ≠ me) (hm : m.source = me)
    (hb : n.nodes dest = some b) (hr : b.ipc.receives me = true) :
    NetInv (((((n.put me { a with ipc := .receivingReply dest ptr, again := some (.sendrec dest ptr) }).put dest
      { b with ipc := .messageAvailable m }).wake dest).rest me).record (.sent me dest m)) := by
  refine hn.given ⟨⟨fun q h1 h2 => (nodes_put_of_ne h2).trans (nodes_put_of_ne h1),
      fun q h1 h2 => (and_iff_right h1).trans (or_iff_right h2), rfl, forall_mem_singleton.mpr rfl⟩, h.node, hb,
      (nodes_put_of_ne hne.symm).trans nodes_put_self, nodes_put_self⟩ hi hne hm (.inl hr) ⟨hne, .inl rfl⟩ rfl rfl
    (fun p => rfl) (.receivingReply (fun e => e.1 rfl) (ne_any hn hb)) (fun t ptr e => ?_) nofun
  cases e
  exact ⟨rfl, hr⟩

variable {r : Option Nat}

theorem NetInv.queue {call : Call} (h : n.Ready me call a) (hc : SendCall dest r call) (hi : a.ipc = .none)
    (hne : dest ≠ me) (hm : m.source = me) (hb : n.nodes dest = some b) (hr : b.ipc.receives me = false) :
    NetInv ((((n.put me { a with ipc := .sending dest m r, again := some call }).put dest
      { b with senders := b.senders ++ [me] }).rest me).record (.sent me dest m)) := by
  generalize hn' : (((n.put me { a with ipc := .sending dest m r, again := some call }).put dest
      { b with senders := b.senders ++ [me] }).rest me).record (.sent me dest m) = n'
  have ht : Turns n n' me dest a { a with ipc := .sending dest m r, again := some call } b
      { b with senders := b.senders ++ [me] } [.sent me dest m] := by
    rw [← hn']
    exact ⟨⟨fun q h1 h2 => (nodes_put_of_ne h2).trans (nodes_put_of_ne h1), fun q h1 _ => and_iff_right h1, rfl,
      forall_mem_singleton.mpr rfl⟩, h.node, hb, (nodes_put_of_ne hne.symm).trans nodes_put_self, nodes_put_self⟩
  have hsleep : ¬n'.awake me := by
    rw [← hn']
    exact fun e => e.1 rfl
  have hawake : n'.awake dest ↔ n.awake dest := by
    rw [← hn']
    exact and_iff_right hne
  have hact : ∀ e ∈ [Event.sent me dest m], e.actor ≠ dest := ht.actor_ne hne
  have hindex : Indexed n'.senders n'.target := by
    refine hn.index.join ((view_of h.node).trans (by rw [hi]; rfl)) ?_
      (fun u hu => ht.view (fun _ => rfl) (absurd · hu)) (view_of ht.me_new)
      fun q hq => ht.view (absurd · hq) fun _ => rfl
    rw [senders, senders, view_of ht.o_new, view_of hb]
  refine ht.inv hn le_rfl (.sending hsleep hm (ne_any hn hb) hc (ht.log ▸ Open.sent n.log me dest m))
    (ht.log ▸ (hn.phase dest b hb).append hawake hact) hindex (fun t m' hto hh => ?_) nofun
    (fun t ptr hci => ?_) nofun (fun src ptr hci s hs => ?_) (fun p q => ?_) (forall_mem_singleton.mpr hm)
  · rcases hto with rfl | rfl
    · exact absurd hh (not_holds_of h.node (by rw [hi]; exact nofun))
    · obtain ⟨c, src, ptr, hc', hci, hca⟩ := hh
      rw [hb] at hc'
      cases hc'
      exact .inl ⟨_, src, ptr, ht.o_new, hci, hca⟩
  · rcases hn.asked dest b t ptr hb hci with hh | ⟨m', ho, hh⟩
    · exact .inl (ht.log ▸ hh.append hact)
    · refine .inr ⟨m', ht.log ▸ ho.append hact, ?_⟩
      have h1 : t ≠ me := by
        rintro rfl
        exact not_holds_of h.node (by rw [hi]; exact nofun) hh
      have h2 : t ≠ dest := by
        rintro rfl
        refine not_holds_of hb (fun m'' e => ?_) hh
        cases e.symm.trans hci
      obtain ⟨c, src, ptr, hc', hci, hca⟩ := hh
      exact ⟨c, src, ptr, (ht.nodes t h1 h2).trans hc', hci, hca⟩
  · rcases mem_append.mp hs with hs | hs
    · exact hn.patient dest b src ptr hb hci s hs
    · rw [mem_singleton.mp hs]
      rw [hci] at hr
      exact hr
  · have hdep : n'.deposited p q = n.deposited p q := ht.view (fun _ => by rw [hi]; rfl) fun _ => rfl
    rw [gotBy_sent, nil_append, sentTo_sent, inFlight, inFlight, hdep, append_assoc]
    congr 1
    by_cases hp : p = me
    · subst hp
      have h0 : n.waiting p q = [] := (view_of h.node).trans (by rw [hi]; rfl)
      have h1 : n'.waiting p q = (IpcState.sending dest m r).waiting q := view_of ht.me_new
      rw [h0, h1, IpcState.waiting]
      by_cases hq : q = dest
      · simp [hq]
      · simp [hq, Ne.symm hq]
    · rw [if_neg fun e => hp e.1, append_nil]
      exact (ht.view (absurd · hp) fun _ => rfl).symm

/-- A message is taken from a waiting sender, which is done or waits for the reply. -/
theorem NetInv.collected {b' : Node}
    (ht : Turns n n' me sender a { a with again := none, senders := a.senders.erase sender } b b' [.received me src m])
    (hi : a.ipc = .none) (hne : sender ≠ me) (hacc : accepts src sender = true) (hbi : b.ipc = .sending me m r)
    (hsb : b'.senders = b.senders) (hphase : Phase n'.log (n'.awake sender) sender b'.ipc b'.again)
    (hask : ∀ t ptr, b'.ipc = .receivingReply t ptr → t = me) (hg : b'.ipc.target = none)
    (hdep : ∀ p, b'.ipc.deposited p = []) (hrec : ∀ src ptr, b'.ipc ≠ .receiving src ptr) : NetInv n' := by
  have hsend : n.senders me = a.senders := view_of ht.me_old
  have hph := hn.phase sender b ht.o_old
  rw [hbi] at hph
  obtain ⟨hsrc, hopen⟩ : m.source = sender ∧ Open n.log sender me m := by
    generalize b.again = c at hph
    cases hph with
    | sending _ hm _ _ ho => exact ⟨hm, ho⟩
  have hindex : Indexed n'.senders n'.target := by
    have hnodup : a.senders.Nodup := hsend ▸ hn.nodup me
    have hnew : n'.senders me = a.senders.erase sender := view_of ht.me_new
    refine hn.index.quit ((view_of ht.o_old).trans (by rw [hbi]; rfl)) ?_
      (fun u hu => ht.view (absurd · hu) fun _ => hsb) ((view_of ht.o_new).trans hg)
      fun q hq => ht.view (fun _ => rfl) (absurd · hq)
    rw [hnew, hsend]
    exact ⟨hnodup.erase sender, fun r => hnodup.mem_erase_iff⟩
  have hidle : ∀ {i}, a.ipc = i → i = .none := fun e => e.symm.trans hi
  have hfair : accepts src m.source = true := hsrc.symm ▸ hacc
  refine ht.inv hn le_rfl (by change Phase _ _ _ a.ipc none; rw [hi]; exact .idle) hphase hindex
    (fun t m' hto hh => ?_) (fun t ptr hci => by cases hidle hci) (fun t ptr hci => ?_)
    (fun src ptr hci => by cases hidle hci) (fun src ptr hci => absurd hci (hrec src ptr)) (fun p q => ?_)
    (forall_mem_singleton.mpr hfair)
  · rcases hto with rfl | rfl
    · exact absurd hh (not_holds_of ht.me_old (by rw [hi]; exact nofun))
    · exact absurd hh (not_holds_of ht.o_old (by rw [hbi]; exact nofun))
  · rw [hask t ptr hci]
    exact .inl (ht.log ▸ hopen.heard hne.symm)
  · have hs0 : sentTo [Event.received me src m] p q = [] := rfl
    have hdep' : n'.deposited p q = n.deposited p q := ht.view (fun _ => rfl) fun _ => by rw [hdep, hbi]; rfl
    rw [hs0, append_nil, inFlight, inFlight, hdep', gotBy_one (.inl rfl)]
    by_cases hp : p = sender
    · subst hp
      have h0 : n.waiting p q = (IpcState.sending me m r).waiting q := (view_of ht.o_old).trans (by rw [hbi])
      have h1 : n'.waiting p q = [] := (view_of ht.o_new).trans (waiting_of_target hg)
      rw [h0, h1, IpcState.waiting]
      by_cases hq : me = q
      · subst hq
        have hd : n.deposited p me = [] := (view_of ht.me_old).trans (by rw [hi]; rfl)
        simp [hd, hsrc]
      · simp [hq]
    · have hw : n'.waiting p q = n.waiting p q := ht.view (fun _ => rfl) (absurd · hp)
      rw [hw, if_neg fun e => hp (e.2.symm.trans hsrc), nil_append]

theorem NetInv.collect {t : Pid} (h : n.Ready me (.receive src ptr) a) (hi : a.ipc = .none)
    (hs : sender ∈ a.senders) (hacc : accepts src sender = true) (hb : n.nodes sender = some b)
    (hbi : b.ipc = .sending t m r) :
    NetInv (((n.put me { a with again := none, senders := a.senders.erase sender }).handOver sender me b r).record
      (.received me src m)) := by
  have hne : sender ≠ me := by
    rintro rfl
    rw [h.node] at hb
    cases hb
    rw [hi] at hbi
    cases hbi
  obtain rfl : t = me := by
    have hl := (hn.link me sender).mp (by rw [senders, view_of h.node]; exact hs)
    rw [target, view_of hb, hbi] at hl
    exact Option.some.inj hl
  have hph := hn.phase sender b hb
  rw [hbi] at hph
  obtain ⟨call, hagain, hsleep, hcall⟩ : ∃ call, b.again = some call ∧ ¬n.awake sender ∧ SendCall t r call := by
    generalize b.again = c at hph
    cases hph with
    | sending hs' _ _ hc _ => exact ⟨_, rfl, hs', hc⟩
  have hact : ∀ e ∈ [Event.received t src m], e.actor = t := forall_mem_singleton.mpr rfl
  cases r with
  | some rp =>
    have hag : b.again = some (.sendrec t rp) := hagain.trans (congrArg some hcall)
    refine hn.collected
      ⟨⟨fun q h1 h2 => (nodes_put_of_ne h2).trans (nodes_put_of_ne h1), fun _ _ _ => Iff.rfl, rfl, hact⟩, h.node, hb,
        (nodes_put_of_ne hne.symm).trans nodes_put_self, nodes_put_self⟩ hi hne hacc hbi rfl ?_ (fun t ptr e => ?_) rfl (fun _ => rfl) nofun
    · rw [hag]
      exact .receivingReply hsleep (ne_any hn h.node)
    · cases e
      rfl
  | none =>
    obtain ⟨p', hp'⟩ := hcall
    refine hn.collected
      ⟨⟨fun q h1 h2 => (nodes_put_of_ne h2).trans (nodes_put_of_ne h1), fun _ _ h2 => or_iff_right h2, rfl, hact⟩,
        h.node, hb, (nodes_put_of_ne hne.symm).trans nodes_put_self, nodes_put_self⟩ hi hne hacc hbi rfl ?_ nofun rfl (fun _ => rfl) nofun
    rw [hagain, hp']
    exact .sent (.inl rfl)

/-- The steps of the protocol keep its books. -/
theorem NetInv.step (h : Step n n') : NetInv n' := by
  cases h with
  | finish h hi => exact hn.finish h hi
  | deliver h hi hne hm hb hr => exact hn.deliver h hi hne hm hb hr
  | queue h hc hi hne hm hb hr => exact hn.queue h hc hi hne hm hb hr
  | ask h hi hne hm hb hr => exact hn.ask h hi hne hm hb hr
  | take h hi => exact hn.take h hi
  | sleep h hi hs => exact hn.sleep h hi hs
  | collect h hi hs hacc hb hbi => exact hn.collect h hi hs hacc hb hbi
  | reply h hi => exact hn.reply h hi

end

end Pair
end OpenV.Sched
