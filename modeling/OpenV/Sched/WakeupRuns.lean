import OpenV.Sched.Wakeups

/- Whole runs of reads, writes and closes. Besides what the calls do there is what the
   scheduler does, which moves processes between the harts and the run queue and
   leaves the streams alone (`Moves`), and the start of a call, which finds nobody
   reading what it reads. A run from a state in which nobody sleeps and no hart is in
   a call loses no wakeup if its steps are `Safe`; `closed_reader_sleeps` is a run of
   `sys_read` in which one is lost. -/
namespace OpenV.Sched

open Function Os IoOp

/-- The system becomes `os'`, in which processes have moved, but not those that are in a call. -/
structure Io.Moves (s : Io) (os' : Os) : Prop where
  endpoints : os'.endpoints = s.os.endpoints
  pipes : os'.pipes = s.os.pipes
  some : ∀ p, (os'.proc p).isSome = (s.os.proc p).isSome
  alone : ∀ h h', os'.current h = os'.current h' → os'.current h ≠ 0 → h = h'
  busy : ∀ h, s.todo h ≠ [] → os'.current h = s.os.current h ∧
    os'.proc (s.os.current h) = s.os.proc (s.os.current h)
  blocked : ∀ p o, os'.Blocked p o → s.os.Blocked p o
  queued : ∀ p o, Io.Enlisted { s with os := os' } p o → p ∈ s.os.queued → p ∈ os'.queued

section Moves
variable {s : Io} {os' : Os}

/-- Who sleeps on a stream or is busy with something afterwards was so before. -/
theorem Io.Moves.back (hm : s.Moves os') {P : Micro → Prop} {p : Pid} {o : Stream}
    (he : os'.Blocked p o ∨ ∃ h i, i ∈ s.todo h ∧ P i ∧ os'.current h = p) :
    s.os.Blocked p o ∨ ∃ h i, i ∈ s.todo h ∧ P i ∧ s.os.current h = p := by
  rcases he with hb | ⟨h, i, hi, ho, hc⟩
  · exact .inl (hm.blocked p o hb)
  · refine .inr ⟨h, i, hi, ho, ?_⟩
    rw [← (hm.busy h (List.ne_nil_of_mem hi)).1]
    exact hc

theorem Io.Moves.waiter (hm : s.Moves os') (o : Stream) : os'.waiter o = s.os.waiter o := by
  cases o with
  | channel ep => rw [Os.waiter, Os.waiter, hm.endpoints]
  | pipe k => rw [Os.waiter, Os.waiter, hm.pipes]

theorem Io.Moves.hasData (hm : s.Moves os') (o : Stream) : os'.hasData o = s.os.hasData o := by
  cases o with
  | channel ep => rw [Os.hasData, Os.hasData, hm.endpoints]
  | pipe k => rw [Os.hasData, Os.hasData, hm.pipes]

theorem IoInv.moves (hs : IoInv s) (hm : s.Moves os') : IoInv { s with os := os' } where
  bound := hs.bound
  pairs ep := by
    unfold Io.peer
    rw [hm.endpoints]
    exact hs.pairs ep
  apart ep := by
    unfold Io.peer
    rw [hm.endpoints]
    exact hs.apart ep
  pos p hp := hs.pos p ((hm.some p).symm.trans hp)
  alone := hm.alone
  reads h i r hi hr := by
    obtain ⟨hone, hp⟩ := hs.reads h i r hi hr
    obtain ⟨hc, hproc⟩ := hm.busy h (List.ne_nil_of_mem hi)
    refine ⟨hone, ?_⟩
    rw [hc, hproc]
    exact hp
  excl h i r hi hr := by
    obtain ⟨hnob, huniq⟩ := hs.excl h i r hi hr
    exact ⟨fun p hb => hnob p (hm.blocked p _ hb), huniq⟩
  slot p o he := by
    rcases hs.slot p o (hm.back he) with hw | hq | hc
    · exact .inl ((hm.waiter o).trans hw)
    · exact .inr (.inl (hm.queued p o he hq))
    · exact .inr (.inr hc)
  full p o hw hp hd := by
    have hp' : os'.waiter o = p := hp
    have hd' : os'.hasData o = true := hd
    rw [hm.waiter] at hp'
    rw [hm.hasData] at hd'
    exact hs.full p o (hm.back hw) hp' hd'
  lost p ep hb := by
    rw [hm.endpoints]
    exact hs.lost p ep (hm.blocked p _ hb)
  gone p ep hb hp := by
    have hp' : os'.waiter (.channel ep) = p := hp
    rw [hm.waiter] at hp'
    unfold Io.peer
    rw [hm.endpoints]
    exact hs.gone p ep (hm.blocked p _ hb) hp'
  closing ep ha := by
    have ha' : s.alive ep = true := by
      unfold Io.alive at ha ⊢
      rw [hm.endpoints] at ha
      exact ha
    unfold Io.peer
    rw [hm.endpoints]
    exact hs.closing ep ha'
  open' p k hb hp := by
    have hp' : os'.waiter (.pipe k) = p := hp
    rw [hm.waiter] at hp'
    rw [hm.pipes]
    exact hs.open' p k (hm.blocked p _ hb) hp'
  locked h r k hj hr := by
    have hd : os'.hasData (.pipe k) = s.os.hasData (.pipe k) := hm.hasData _
    rw [hd, hm.pipes]
    exact hs.locked h r k hj hr

end Moves

/-! ## The scheduler -/

section Sched
variable {s : Io} {h pc : Nat}
variable {os : Os} {h' : Nat} {c : IoCall}

/-- A process keeps sleeping if it is not the one that moves. -/
theorem blocked_of_ne {os' : Os} {p : Pid} {o : Stream} (hb : os'.Blocked p o) (hp : os'.proc p = os.proc p)
    (hq : p ∈ os.queued → p ∈ os'.queued) (hc : ∀ h, os.current h = p → ∃ h', os'.current h' = p) :
    os.Blocked p o := by
  refine hb.back ?_ hq fun h e => .inr (hc h e)
  rw [hp]
  exact Os.Each.refl SameFrame.refl os p

theorem Os.current_leave_of_ne (os : Os) {h : Nat} (hne : h' ≠ h) : (os.leave h).current h' = os.current h' :=
  update_of_ne hne ..

/-- The process on a busy hart is not on another one. -/
theorem IoInv.busy_ne (hs : IoInv s) (ht : s.todo h = []) (h0 : s.os.current h ≠ 0) (hb : s.todo h' ≠ []) :
    h' ≠ h ∧ s.os.current h' ≠ s.os.current h := by
  have hne : h' ≠ h := fun e => hb (by rw [e, ht])
  exact ⟨hne, fun e => hne (hs.alone h h' e.symm h0).symm⟩

theorem IoInv.preempt (hs : IoInv s) (ht : s.todo h = []) : IoInv { s with os := s.os.preempt h pc } := by
  unfold Os.preempt
  split
  · exact hs
  · rename_i h0
    let os1 : Os := (s.os.setProc (s.os.current h) (Proc.interrupted pc)).enqueue (s.os.current h)
    have hproc : ∀ q, os1.proc q = if q = s.os.current h then (s.os.proc q).map (Proc.interrupted pc) else s.os.proc q :=
      fun _ => rfl
    have hmem : ∀ q, q ∈ (os1.leave h).queued ↔ q ∈ s.os.queued ∨ q = s.os.current h := fun q => by simp [os1]
    have hlost : ∀ h', (os1.leave h).current h' = s.os.current h' ∨ (os1.leave h).current h' = 0 := fun h' =>
      (update_zero s.os.current h h').imp_right And.right
    refine hs.moves ⟨rfl, rfl, fun p => ?_, alone_of_lost hlost hs.alone, fun h' hbusy => ?_, fun p o hb => ?_,
      fun p o _ hq => (hmem p).mpr (.inl hq)⟩
    · change (os1.proc p).isSome = _
      rw [hproc]
      split
      · exact Option.isSome_map
      · rfl
    · obtain ⟨hne, hcur⟩ := hs.busy_ne ht h0 hbusy
      refine ⟨current_leave_of_ne _ hne, ?_⟩
      change os1.proc _ = _
      rw [hproc, if_neg hcur]
    · have hp : p ≠ s.os.current h := fun e => hb.2.1 ((hmem p).mpr (.inr e))
      refine blocked_of_ne hb ((hproc p).trans (if_neg hp)) (fun hq => (hmem p).mpr (.inl hq)) fun h' e => ⟨h', ?_⟩
      exact (current_leave_of_ne _ fun e' => hp (by rw [← e, e'])).trans e

theorem IoInv.dispatch (hs : IoInv s) (ht : s.todo h = [])
    (hsafe : s.os.current h = 0 → ∀ x, nextEntry s.os.runQueue = some x → ∀ h', s.os.current h' ≠ x.2) :
    IoInv { s with os := s.os.dispatch h } := by
  unfold Os.dispatch
  split
  swap
  · exact hs
  rename_i hidle
  split
  · exact hs
  rename_i x hx
  have hnot := hsafe hidle x hx
  let os1 : Os := { s.os with runQueue := s.os.runQueue.erase x }
  have hsub : ∀ q, q ∈ s.os.queued → q ≠ x.2 → q ∈ os1.queued := by
    intro q hq hne
    obtain ⟨y, hy, rfl⟩ := List.mem_map.mp hq
    exact List.mem_map_of_mem ((List.mem_erase_of_ne fun e => hne (by rw [e])).mpr hy)
  -- who is in the slot of a stream is not the process of the entry
  have hother : ∀ os' : Os, (∀ h', s.todo h' ≠ [] → os'.current h' = s.os.current h') → (∀ o, ¬os'.Blocked x.2 o) →
      ∀ {p : Pid} {o : Stream}, Io.Enlisted { s with os := os' } p o → p ≠ x.2 := by
    rintro os' hbusy hnb p o (hb | ⟨h', i, hi, -, hc⟩) rfl
    · exact hnb o hb
    · exact hnot h' ((hbusy h' (List.ne_nil_of_mem hi)).symm.trans hc)
  -- an entry is thrown away whose process does not sleep
  have hdrop : (∀ o, ¬os1.Blocked x.2 o) → IoInv { s with os := os1 } := by
    intro hthrown
    refine hs.moves ⟨rfl, rfl, fun _ => rfl, hs.alone, fun _ _ => ⟨rfl, rfl⟩, fun p o hb => ?_, fun p o he hq => ?_⟩
    · exact blocked_of_ne hb rfl (fun hq => hsub p hq fun e => hthrown o (e ▸ hb)) fun h' e => ⟨h', e⟩
    · exact hsub p hq (hother os1 (fun _ _ => rfl) hthrown he)
  dsimp only
  split
  · rename_i hnone
    refine hdrop fun o hb => ?_
    obtain ⟨⟨a, _, _, ha, _⟩, _⟩ := hb
    rw [hnone] at ha
    cases ha
  rename_i p hp
  split
  · rename_i hz
    refine hdrop fun o hb => ?_
    obtain ⟨⟨a, _, _, ha, hlive, _⟩, _⟩ := hb
    rw [hp] at ha
    cases ha
    rw [hz] at hlive
    cases hlive
  · have hcur : ∀ h', h' ≠ h → update s.os.current h x.2 h' = s.os.current h' := fun h' hne =>
      update_of_ne hne ..
    have hbusy : ∀ h', s.todo h' ≠ [] → update s.os.current h x.2 h' = s.os.current h' := fun h' hb =>
      hcur h' fun e => hb (by rw [e, ht])
    have hproc : ∀ q, q ≠ x.2 → (os1.setProc x.2 fun p => { p with state := .running }).proc q = s.os.proc q :=
      fun q hne => proc_setProc_of_ne hne
    have hruns : ∀ o, ¬Os.Blocked { os1.setProc x.2 fun p => { p with state := .running } with
        current := update s.os.current h x.2 } x.2 o := fun o hb => hb.2.2 h (update_self ..)
    refine hs.moves ⟨rfl, rfl, fun q => ?_, fun h1 h2 he h0 => ?_, fun h' hb => ⟨hbusy h' hb, ?_⟩, fun q o hb => ?_,
      fun q o he hq => hsub q hq (hother _ hbusy hruns he)⟩
    · change ((os1.setProc x.2 _).proc q).isSome = (os1.proc q).isSome
      rw [proc_setProc]
      split
      · exact Option.isSome_map
      · rfl
    · dsimp only at he h0
      by_cases e1 : h1 = h
      · by_cases e2 : h2 = h
        · exact e1.trans e2.symm
        · rw [e1, update_self, hcur h2 e2] at he
          exact absurd he.symm (hnot h2)
      · rw [hcur h1 e1] at he h0
        by_cases e2 : h2 = h
        · rw [e2, update_self] at he
          exact absurd he (hnot h1)
        · rw [hcur h2 e2] at he
          exact hs.alone h1 h2 he h0
    · exact hproc _ (hnot h')
    · have hne : q ≠ x.2 := fun e => hruns o (e ▸ hb)
      refine blocked_of_ne hb (hproc q hne) (fun hq => hsub q hq hne) fun h' e => ⟨h', (hcur h' ?_).trans e⟩
      rintro rfl
      rw [hidle] at e
      refine absurd e.symm (hs.ne_zero ?_)
      obtain ⟨⟨a, _, _, ha, _⟩, _⟩ := hb
      rw [← hproc q hne]
      exact Option.isSome_of_eq_some ha

/-! ## The start of a call -/

theorem IoCall.micro_enlisted (c : IoCall) : c.micro.enlisted = none := by cases c <;> rfl

/-- Who makes a call has a handle of what it holds. -/
theorem IoCall.micro_holds (ho : c.opened os = true) {ep : Nat} (hh : c.micro.holds ep = true) :
    0 < (os.endpoints ep).handles := by
  cases c with
  | read r =>
    cases r with
    | read | channelRead =>
      cases eq_of_beq hh
      exact of_decide_eq_true ho
    | readPipe k len => cases eq_of_beq hh
  | channelWrite ep' msg =>
    cases eq_of_beq hh
    exact of_decide_eq_true ho
  | _ => cases hh

theorem IoCall.micro_reader {r : Reader} (hr : c.micro.reader = some r) : c = .read r := by
  cases c <;> cases hr
  rfl

/-- The call begins: it is the list of its hart. -/
def Io.begin (h : Nat) (c : IoCall) (s : Io) : Io := { s with todo := update s.todo h [c.micro] }

section Begin
variable {c : IoCall}
variable {o : Stream} {j : Micro}

theorem mem_begin {h' : Nat} (hj : j ∈ (s.begin h c).todo h') :
    (h' = h ∧ j = c.micro) ∨ (h' ≠ h ∧ j ∈ s.todo h') := by
  unfold Io.begin at hj
  dsimp only at hj
  by_cases e : h' = h
  · rw [e, update_self] at hj
    exact .inl ⟨e, List.mem_singleton.mp hj⟩
  · rw [update_of_ne e] at hj
    exact .inr ⟨e, hj⟩

/-- What a hart is busy with that the call is not about was there before. -/
theorem back_begin {P : Micro → Prop} (hP : ¬P c.micro) {p : Pid}
    (he : s.os.Blocked p o ∨ ∃ h' i, i ∈ (s.begin h c).todo h' ∧ P i ∧ s.os.current h' = p) :
    s.os.Blocked p o ∨ ∃ h' i, i ∈ s.todo h' ∧ P i ∧ s.os.current h' = p := by
  rcases he with hb | ⟨h', i, hi, hn, hc⟩
  · exact .inl hb
  · rcases mem_begin hi with ⟨-, rfl⟩ | ⟨-, hold⟩
    · exact absurd hn hP
    · exact .inr ⟨h', i, hold, hn, hc⟩

theorem pending_begin (ht : s.todo h = []) (hj : s.Pending j) : (s.begin h c).Pending j := by
  obtain ⟨h', hj⟩ := hj
  refine ⟨h', ?_⟩
  unfold Io.begin
  dsimp only
  rw [update_of_ne fun e => by rw [e, ht] at hj; cases hj]
  exact hj

theorem swapping_begin (ht : s.todo h = []) (hs : s.Swapping o) : (s.begin h c).Swapping o :=
  hs.imp (pending_begin ht) fun ⟨own, ep, e, hp⟩ => ⟨own, ep, e, pending_begin ht hp⟩

theorem dropping_begin (ht : s.todo h = []) {ep : Nat} (hs : s.Dropping ep) : (s.begin h c).Dropping ep :=
  hs.imp (pending_begin ht) fun ⟨i, hp, hi⟩ => ⟨i, pending_begin ht hp, hi⟩

theorem bound_begin (hs : IoInv s) (hh : h < s.harts) (h' : Nat) (hne : (s.begin h c).todo h' ≠ []) :
    h' < (s.begin h c).harts := by
  by_cases e : h' = h
  · rw [e]
    exact hh
  · unfold Io.begin at hne
    dsimp only at hne
    rw [update_of_ne e] at hne
    exact hs.bound h' hne

theorem IoInv.begin (hs : IoInv s) (ht : s.todo h = []) (hh : h < s.harts) (ho : c.opened s.os = true)
    (hcall : ∃ p, s.os.proc (s.os.current h) = some p ∧ p.trap = .ecall pc c.call ∧ p.sepc = pc + 4)
    (hfree : ∀ r, c = .read r → (∀ p, ¬s.os.Blocked p r.stream) ∧
      ∀ h i r', i ∈ s.todo h → i.reader = some r' → r'.stream ≠ r.stream) : IoInv (s.begin h c) where
  bound := bound_begin hs hh
  pairs := hs.pairs
  apart := hs.apart
  pos := hs.pos
  alone := hs.alone
  reads h' i r hi hr := by
    rcases mem_begin hi with ⟨rfl, rfl⟩ | ⟨hne, hold⟩
    · refine ⟨update_self .., ?_⟩
      cases IoCall.micro_reader hr
      obtain ⟨p, hp⟩ := hcall
      exact ⟨p, pc, hp⟩
    · obtain ⟨hone, hp⟩ := hs.reads h' i r hold hr
      exact ⟨(update_of_ne hne ..).trans hone, hp⟩
  excl h' i r hi hr := by
    rcases mem_begin hi with ⟨rfl, rfl⟩ | ⟨hne, hold⟩
    · obtain ⟨hnob, hnone⟩ := hfree r (IoCall.micro_reader hr)
      refine ⟨hnob, fun h'' i' r' hi' hr' e => ?_⟩
      rcases mem_begin hi' with ⟨rfl, -⟩ | ⟨-, hold'⟩
      · rfl
      · exact absurd e (hnone h'' i' r' hold' hr')
    · obtain ⟨hnob, huniq⟩ := hs.excl h' i r hold hr
      refine ⟨hnob, fun h'' i' r' hi' hr' e => ?_⟩
      rcases mem_begin hi' with ⟨-, rfl⟩ | ⟨-, hold'⟩
      · exact absurd e.symm ((hfree r' (IoCall.micro_reader hr')).2 h' i r hold hr)
      · exact huniq h'' i' r' hold' hr' e
  slot p o he := by
    rcases hs.slot p o (back_begin (by rw [IoCall.micro_enlisted]; exact nofun) he) with hw | hq | hp | ⟨ep, hp⟩
    · exact .inl hw
    · exact .inr (.inl hq)
    · exact .inr (.inr (.inl (pending_begin ht hp)))
    · exact .inr (.inr (.inr ⟨ep, pending_begin ht hp⟩))
  full p o hw hp hd := by
    refine swapping_begin ht (hs.full p o (back_begin (fun hn => ?_) hw) hp hd)
    have hnone := watches_enlisted hn
    rw [IoCall.micro_enlisted] at hnone
    cases hnone
  lost := hs.lost
  gone p ep hb hp hz := by
    obtain ⟨hl, hsd⟩ := hs.gone p ep hb hp hz
    exact ⟨hl, hsd.imp (swapping_begin ht) (dropping_begin ht)⟩
  closing ep ha hz hl := by
    have ha' : s.alive ep = true := by
      refine (alive_iff hs.bound).mpr ?_
      rcases (alive_iff (bound_begin hs hh)).mp ha with h1 | h1 | ⟨j, ⟨h', hj⟩, hj'⟩
      · exact .inl h1
      · exact .inr (.inl h1)
      · rcases mem_begin hj with ⟨-, rfl⟩ | ⟨-, hold⟩
        · exact .inl (IoCall.micro_holds ho hj')
        · exact .inr (.inr ⟨j, ⟨h', hold⟩, hj'⟩)
    exact (hs.closing ep ha' hz hl).imp id (dropping_begin ht)
  open' := hs.open'
  locked h' r k hj hr := by
    refine hs.locked h' r k ?_ hr
    rcases hj with hj | hj
    · rcases mem_begin hj with ⟨-, e⟩ | ⟨-, hold⟩
      · cases c <;> cases e
      · exact .inl hold
    · rcases mem_begin hj with ⟨-, e⟩ | ⟨-, hold⟩
      · cases c <;> cases e
      · exact .inr hold

end Begin

/-- A process enters the kernel on a hart that is in user mode. -/
theorem IoInv.enter (hs : IoInv s) (ht : s.todo h = []) {p : Proc} (hp : s.os.proc (s.os.current h) = some p)
    (pc : Nat) (call : Call) : s.Moves (s.os.setProc (s.os.current h) (Proc.enter pc call)) := by
  have h0 : s.os.current h ≠ 0 := hs.ne_zero (by rw [hp]; rfl)
  refine ⟨rfl, rfl, fun q => ?_, hs.alone, fun h' hb => ⟨rfl, ?_⟩, fun q o hb => ?_, fun q o _ hq => hq⟩
  · rw [proc_setProc]
    split
    · exact Option.isSome_map
    · rfl
  · exact proc_setProc_of_ne (hs.busy_ne ht h0 hb).2
  · have hne : q ≠ s.os.current h := fun e => hb.2.2 h e.symm
    exact blocked_of_ne hb (proc_setProc_of_ne hne) id fun h' e => ⟨h', e⟩

theorem IoInv.call (hs : IoInv s) (hsafe : IoOp.Safe (.call h pc c) s) : IoInv ((call h pc c).stepIo s) := by
  unfold stepIo
  dsimp only
  split
  swap
  · exact hs
  rename_i hok
  obtain ⟨ht, hh, ho⟩ := hok
  cases hc : s.os.caller h pc c.call with
  | none => exact hs
  | some me =>
    obtain ⟨rfl, p, hp, -⟩ := caller_eq hc
    have hm := hs.enter ht hp pc c.call
    refine (hs.moves hm).begin ht hh ?_ ⟨p.enter pc c.call, ?_, rfl, rfl⟩ fun r e => ?_
    · exact ho
    · change (s.os.setProc (s.os.current h) _).proc (s.os.current h) = _
      rw [proc_setProc_self, hp]
      rfl
    · subst e
      exact ⟨fun q hb => hsafe.1 q (hm.blocked q _ hb), hsafe.2⟩

end Sched

/-- A step that is safe keeps the invariant. -/
theorem IoInv.stepIo {s : Io} (hs : IoInv s) (op : IoOp) (hsafe : op.Safe s) : IoInv (op.stepIo s) := by
  cases op with
  | dispatch h =>
    unfold IoOp.stepIo
    dsimp only
    split
    · rename_i hok
      exact hs.dispatch hok.1 hsafe
    · exact hs
  | preempt h pc =>
    unfold IoOp.stepIo
    dsimp only
    split
    · rename_i ht
      exact hs.preempt ht
    · exact hs
  | call h pc c => exact hs.call hsafe
  | step h =>
    unfold IoOp.stepIo
    dsimp only
    split
    · exact hs
    · rename_i i rest ht
      exact hs.after ht (hsafe i rest ht)

/-- Nobody sleeps on a stream, no hart is in a call, endpoints come in pairs and those whose peer has gone know. -/
structure IoStart (s : Io) : Prop where
  idle : ∀ h, s.todo h = []
  awake : ∀ p o, ¬s.os.Blocked p o
  pos : ∀ p, (s.os.proc p).isSome = true → 0 < p
  alone : ∀ h h', s.os.current h = s.os.current h' → s.os.current h ≠ 0 → h = h'
  pairs : ∀ ep, s.peer (s.peer ep) = ep
  apart : ∀ ep, s.peer ep ≠ ep
  closed : ∀ ep, s.alive ep = true → s.alive (s.peer ep) = false → (s.os.endpoints ep).peerClosed = true

theorem IoStart.inv {s : Io} (hs : IoStart s) : IoInv s := by
  have hnone : ∀ {i : Micro} {h : Nat}, i ∉ s.todo h := fun {i h} hi => by
    rw [hs.idle h] at hi
    cases hi
  have henl : ∀ p o, ¬s.Enlisted p o := by
    rintro p o (hb | ⟨h, i, hi, -⟩)
    · exact hs.awake p o hb
    · exact hnone hi
  exact
    { bound := fun h hne => absurd (hs.idle h) hne
      pairs := hs.pairs
      apart := hs.apart
      pos := hs.pos
      alone := hs.alone
      reads := fun h i r hi => absurd hi hnone
      excl := fun h i r hi => absurd hi hnone
      slot := fun p o he => absurd he (henl p o)
      full := fun p o hw => absurd hw.enlisted (henl p o)
      lost := fun p ep hb => absurd hb (hs.awake p _)
      gone := fun p ep hb => absurd hb (hs.awake p _)
      closing := fun ep ha hh hl => .inl (hs.closed ep ha (by simp [Io.alive, hh, hl, hs.idle]))
      open' := fun p k hb => absurd hb (hs.awake p _)
      locked := fun h r k hj => absurd hj (not_or.mpr ⟨hnone, hnone⟩) }

/-- In every run in which a stream has one reader at a time, `sys_read` does not go to sleep on a channel whose peer has
gone, no reference is lost that keeps an end from being found out, the last writer of a pipe does not go while a
registered reader sleeps and no process is taken up that runs elsewhere, nobody is left asleep on a stream with
something to read or without a peer: the wakeup is always on its way. -/
theorem no_lost_wakeup {s : Io} (hs : IoStart s) (ops : List IoOp)
    (hsafe : Along run (fun op s _ => op.Safe s) ops s) : Along run (fun _ _ s' => s'.NoLostWakeup) ops s := by
  refine Along.of_inv IoInv (fun op s hs hop => ?_) hs.inv hsafe
  exact Cmd.wp_of_ok rfl ⟨hs.stepIo op hop, (hs.stepIo op hop).noLostWakeup⟩

/-- Two processes with an end of a channel each. -/
def streamExample : Io where
  os := { irqExample with
    endpoints := fun ep =>
      { handles := if ep < 2 then 1 else 0
        peer := if ep % 2 = 0 then ep + 1 else ep - 1 } }
  harts := 2

theorem streamExample_start : IoStart streamExample where
  idle _ := rfl
  awake p o hb := by
    obtain ⟨⟨a, pc, call, ha, -, hagain, -⟩, -⟩ := hb
    have hidle : a = {} := (irqExample_proc ha).2
    rw [hidle] at hagain
    cases hagain
  pos p hp := by
    obtain ⟨a, ha⟩ := Option.isSome_iff_exists.mp hp
    rcases (irqExample_proc ha).1 with rfl | rfl <;> decide
  alone h h' _ h0 := absurd rfl h0
  pairs ep := by
    simp only [Io.peer, streamExample]
    split_ifs <;> omega
  apart ep := by
    simp only [Io.peer, streamExample]
    split_ifs <;> omega
  closed ep ha hp := by
    have hep : ep = 0 ∨ ep = 1 := by
      by_contra hn
      have hzero : (streamExample.os.endpoints ep).handles = 0 := if_neg (by omega)
      unfold Io.alive at ha
      rw [hzero] at ha
      cases ha
    rcases hep with rfl | rfl <;> cases hp

/-- The peer closes its end, and `sys_read` does not look whether it has. -/
theorem closed_reader_sleeps : ∃ s, IoStart s ∧ ¬Along run (fun _ _ s' => s'.NoLostWakeup)
      [.dispatch 0, .dispatch 1, .call 1 0x1000 (.close 1), .step 1, .step 1, .step 1, .step 1,
        .call 0 0x2000 (.read (.read 0 8)), .step 0, .step 0, .step 0] s := by
  refine ⟨streamExample, streamExample_start, fun hrun => ?_⟩
  have hcur : ∀ h, update (update (update (fun _ => (0 : Pid)) 0 1) 1 2) 0 0 h ≠ 1 := by
    intro h
    rw [update_apply, update_apply, update_apply]
    split_ifs <;> decide
  obtain ⟨i, ⟨h, hi⟩, -⟩ := hrun.2.2.2.2.2.2.2.2.2.2.1 1 (.channel 0)
    ⟨⟨_, 0x2000, .readChannel 0, rfl, rfl, rfl, rfl⟩, by decide, hcur⟩ (.inr rfl)
  rcases h with _ | _ | h
  all_goals exact absurd hi List.not_mem_nil

/-- A reader goes to sleep, and is woken by the message that comes. -/
theorem no_lost_wakeup_message : Along run (fun _ _ s' => s'.NoLostWakeup)
    [.dispatch 0, .dispatch 1, .call 0 0x2000 (.read (.channelRead 0 8 0)), .step 0, .step 0, .step 0, .step 0, .step 0,
      .call 1 0x1000 (.write 1 (4, 0)), .step 1, .step 1, .step 1, .step 1] streamExample := by
  refine no_lost_wakeup streamExample_start _ ⟨fun _ x hx h e => ?_, fun _ x hx h e => ?_, ⟨fun p hb => ?_, ?_⟩,
    fun i rest ht => ?_, fun i rest ht => ?_, fun i rest ht => ?_, fun i rest ht => ?_, fun i rest ht => ?_, trivial,
    fun i rest ht => ?_, fun i rest ht => ?_, fun i rest ht => ?_, fun i rest ht => ?_, trivial⟩
  · cases hx
    exact absurd e (by decide : (0 : Pid) ≠ 1)
  · cases hx
    have hcur : update (fun _ => (0 : Pid)) 0 1 h = 2 := e
    rw [update_apply] at hcur
    split_ifs at hcur <;> exact absurd hcur (by decide)
  · -- both processes run
    obtain ⟨⟨a, _, _, ha, _⟩, -, hc⟩ := hb
    have hk : p ∈ ([1, 2] : List Pid) := mem_keys_of ha
    rcases List.mem_cons.mp hk with rfl | hk
    · exact hc 0 rfl
    · rcases List.mem_cons.mp hk with rfl | hk
      · exact hc 1 rfl
      · cases hk
  · exact fun _ _ _ hi => absurd hi List.not_mem_nil
  all_goals cases ht
  case refine_9 => exact fun _ => ⟨fun _ => rfl, fun e => absurd e (by decide : (1 : Nat) ≠ 0)⟩
  all_goals exact trivial

end OpenV.Sched
