import OpenV.Sched.StreamSteps

/- No wakeup is lost, in runs in which a stream has one reader at a time and no
   close goes unheard. The invariant says where the wakeup of a sleeping reader is:
   in the slot of its stream as long as there is nothing to read, with a hart that is
   about to take the slot, with a hart that is about to enqueue the reader, or, when
   the peer has gone, with a hart that will find out. -/
namespace OpenV.Sched

open Function Os Io

/-- The stream whose slot the reader is in, before it has looked again and after. -/
def Micro.enlisted : Micro → Option Stream
  | recvAgain r => some r.stream
  | checkAgain ep _ _ => some (.channel ep)
  | _ => none

/-- The reader has seen that there is nothing to read. -/
def Micro.watches : Micro → Option Stream
  | checkAgain ep _ _ => some (.channel ep)
  | _ => none

section Micro
variable {i j : Micro} {o : Stream} {r : Reader}

theorem enlisted_reader (ho : i.enlisted = some o) : ∃ r, i.reader = some r ∧ r.stream = o := by
  cases i <;> first | cases ho
  · exact ⟨_, rfl, rfl⟩
  · exact ⟨_, rfl, rfl⟩

theorem watches_enlisted (ho : i.watches = some o) : i.enlisted = some o := by
  cases i <;> first | cases ho
  rfl

/-- Who goes to sleep is in the slot and has seen that there is nothing to read. -/
theorem sleeper_enlisted {s : Os} (hr : i.sleeper s = some r) : i.enlisted = some r.stream ∧
    (s.hasData r.stream = false ∨ i.watches = some r.stream ∨
      ∃ k len, r = .readPipe k len ∧ i = .recvAgain r ∧ (s.pipes k).writers ≠ 0) := by
  rcases sleeper_cases hr with ⟨_, _, rfl, rfl, hq⟩ | ⟨_, _, rfl, rfl, hw⟩ | ⟨_, _, _, rfl, rfl, -⟩
  · refine ⟨rfl, .inl ?_⟩
    simp [hasData, Reader.stream, hq]
  · exact ⟨rfl, .inr (.inr ⟨_, _, rfl, rfl, hw⟩)⟩
  · exact ⟨rfl, .inr (.inl rfl)⟩

theorem Next.enlisted {s : Io} {new : List Micro} (hn : Next s i new) (hj : j ∈ new) (ho : j.enlisted = some o) :
    i.enlisted = some o ∨ ∃ r, i = .register r ∧ r.stream = o := by
  obtain ⟨r, hr, -⟩ := enlisted_reader ho
  have hone := (hn.reader hj hr).2
  cases hn with
  | done | retract =>
    rename_i r'
    cases r' <;> cases hone <;> cases ho
  | again =>
    cases hone
    exact .inr ⟨_, rfl, Option.some.inj ho⟩
  | still =>
    cases hone
    exact .inl ho
  | _ => all_goals (cases hone; try cases ho)

theorem Next.watches {s : Io} {new : List Micro} (hn : Next s i new) (hj : j ∈ new) (ho : j.watches = some o) :
    i.enlisted = some o ∧ s.os.hasData o = false := by
  obtain ⟨r, hr, -⟩ := enlisted_reader (watches_enlisted ho)
  have hone := (hn.reader hj hr).2
  cases hn with
  | done | retract =>
    rename_i r'
    cases r' <;> cases hone <;> cases ho
  | still hq =>
    cases hone
    cases ho
    exact ⟨rfl, hq⟩
  | _ => all_goals (cases hone; try cases ho)

end Micro

namespace Io
variable (s : Io)

def Enlisted (p : Pid) (o : Stream) : Prop :=
  s.os.Blocked p o ∨ ∃ h i, i ∈ s.todo h ∧ i.enlisted = some o ∧ s.os.current h = p

def Watching (p : Pid) (o : Stream) : Prop :=
  s.os.Blocked p o ∨ ∃ h i, i ∈ s.todo h ∧ i.watches = some o ∧ s.os.current h = p

def Swapping (o : Stream) : Prop :=
  s.Pending (.swap o) ∨ ∃ own ep, o = .channel ep ∧ s.Pending (.swapFast own ep)

/-- The end of `ep` will be found out. -/
def Dropping (ep : Nat) : Prop := s.Pending (.dropEndpoint ep) ∨ ∃ i, s.Pending i ∧ i.holds ep = true

def Coming (p : Pid) : Prop :=
  p ∈ s.os.queued ∨ s.Pending (.enqueue p) ∨ ∃ ep, s.Pending (.handOff p ep)

def peer (ep : Nat) : Nat := (s.os.endpoints ep).peer

end Io

variable {s : Io} {p : Pid} {o : Stream}

theorem Io.Watching.enlisted (hw : s.Watching p o) : s.Enlisted p o :=
  hw.imp id fun ⟨h, i, hi, ho, hc⟩ => ⟨h, i, hi, watches_enlisted ho, hc⟩

structure IoInv (s : Io) : Prop where
  bound : ∀ h, s.todo h ≠ [] → h < s.harts
  pairs : ∀ ep, s.peer (s.peer ep) = ep
  apart : ∀ ep, s.peer ep ≠ ep
  pos : ∀ p, (s.os.proc p).isSome = true → 0 < p
  alone : ∀ h h', s.os.current h = s.os.current h' → s.os.current h ≠ 0 → h = h'
  /-- a call that reads has one thing to do at a time, for a process that is in this call -/
  reads : ∀ h i r, i ∈ s.todo h → i.reader = some r → s.todo h = [i] ∧
    ∃ p pc, s.os.proc (s.os.current h) = some p ∧ p.trap = .ecall pc r.call ∧ p.sepc = pc + 4
  excl : ∀ h i r, i ∈ s.todo h → i.reader = some r → (∀ p, ¬s.os.Blocked p r.stream) ∧
    ∀ h' i' r', i' ∈ s.todo h' → i'.reader = some r' → r'.stream = r.stream → h' = h
  slot : ∀ p o, s.Enlisted p o → s.os.waiter o = p ∨ s.Coming p
  full : ∀ p o, s.Watching p o → s.os.waiter o = p → s.os.hasData o = true → s.Swapping o
  lost : ∀ p ep, s.os.Blocked p (.channel ep) → 0 < (s.os.endpoints ep).lost
  gone : ∀ p ep, s.os.Blocked p (.channel ep) → s.os.waiter (.channel ep) = p →
    (s.os.endpoints (s.peer ep)).handles = 0 →
    (s.os.endpoints (s.peer ep)).lost = 0 ∧ (s.Swapping (.channel ep) ∨ s.Dropping (s.peer ep))
  closing : ∀ ep, s.alive ep = true → (s.os.endpoints (s.peer ep)).handles = 0 →
    (s.os.endpoints (s.peer ep)).lost = 0 → (s.os.endpoints ep).peerClosed = true ∨ s.Dropping (s.peer ep)
  open' : ∀ p k, s.os.Blocked p (.pipe k) → s.os.waiter (.pipe k) = p → (s.os.pipes k).writers ≠ 0
  locked : ∀ h r k, .register r ∈ s.todo h ∨ .recvAgain r ∈ s.todo h → r.stream = .pipe k →
    (s.os.pipes k).locked = true ∧ s.os.hasData (.pipe k) = false

/-- The invariant says what is asked for. -/
theorem IoInv.noLostWakeup (hs : IoInv s) : s.NoLostWakeup := by
  intro p o hb hready
  rcases hs.slot p o (.inl hb) with hw | hq | he | ⟨ep, he⟩
  · have hdrop : s.Swapping o ∨ ∃ ep, o = .channel ep ∧ s.Dropping (s.peer ep) := by
      rcases hready with hd | hg
      · exact .inl (hs.full p o (.inl hb) hw hd)
      · cases o with
        | channel ep =>
          rcases (hs.gone p ep hb hw (eq_of_beq hg)).2 with h | h
          · exact .inl h
          · exact .inr ⟨ep, rfl, h⟩
        | pipe k => exact absurd (eq_of_beq hg) (hs.open' p k hb hw)
    rcases hdrop with (hp | ⟨own, ep, rfl, hp⟩) | ⟨ep, rfl, hp | ⟨i, hp, hi⟩⟩
    · exact ⟨_, hp, .inr (.inr (.inl rfl))⟩
    · exact ⟨_, hp, .inr (.inr (.inr ⟨ep, rfl, .inl ⟨own, rfl⟩⟩))⟩
    · exact ⟨_, hp, .inr (.inr (.inr ⟨ep, rfl, .inr (.inl rfl)⟩))⟩
    · exact ⟨_, hp, .inr (.inr (.inr ⟨ep, rfl, .inr (.inr hi)⟩))⟩
  · exact absurd hq hb.2.1
  · exact ⟨_, he, .inl rfl⟩
  · exact ⟨_, he, .inr (.inl ⟨ep, rfl⟩)⟩

theorem IoInv.ne_zero (hs : IoInv s) (hp : (s.os.proc p).isSome = true) : p ≠ 0 := fun e => by
  have := hs.pos p hp
  rw [e] at this
  exact absurd this (by decide)

/-! ## References -/

section Alive
variable {s : Io} {ep : Nat}

theorem alive_iff (hb : ∀ h, s.todo h ≠ [] → h < s.harts) : s.alive ep = true ↔
    0 < (s.os.endpoints ep).handles ∨ 0 < (s.os.endpoints ep).lost ∨ ∃ i, s.Pending i ∧ i.holds ep = true := by
  unfold alive Io.Pending
  simp only [Bool.or_eq_true, decide_eq_true_iff, List.any_eq_true, List.mem_range, or_assoc]
  refine or_congr_right (or_congr_right ⟨?_, ?_⟩)
  · rintro ⟨h, -, i, hi, hh⟩
    exact ⟨i, ⟨h, hi⟩, hh⟩
  · rintro ⟨i, ⟨h, hi⟩, hh⟩
    exact ⟨h, hb h (List.ne_nil_of_mem hi), i, hi, hh⟩

end Alive

/-! ## One thing is done -/

/-- It is out of the list of its hart. -/
abbrev Io.pop (h : Nat) (rest : List Micro) (s : Io) : Io := { s with todo := update s.todo h rest }

/-- It is done. -/
def Io.after (h : Nat) (i : Micro) (rest : List Micro) (s : Io) : Io :=
  { s with
    os := (exec h i (s.pop h rest)).1
    todo := update s.todo h ((exec h i (s.pop h rest)).2 ++ rest) }

/-- Who sleeps after a step slept before it, if the step did not put it to sleep. -/
theorem Os.Blocked.back {s s' : Os} (hb : s'.Blocked p o) (hf : Option.Rel SameFrame (s.proc p) (s'.proc p))
    (hq : p ∈ s.queued → p ∈ s'.queued) (hc : ∀ h, s.current h = p → p ∈ s'.queued ∨ ∃ h', s'.current h' = p) :
    s.Blocked p o := by
  obtain ⟨⟨a', pc, call, hp', hz, hagain, hcall⟩, hnq, hnc⟩ := hb
  rw [hp'] at hf
  cases hp : s.proc p with
  | none =>
    rw [hp] at hf
    cases hf
  | some a =>
    rw [hp] at hf
    cases hf with
    | some hsame =>
      obtain ⟨h1, h2, h3⟩ := hsame
      refine ⟨⟨a, pc, call, hp, by rw [← h3]; exact hz, ?_, hcall⟩, fun e => hnq (hq e), fun h e => ?_⟩
      · rw [← hagain]
        unfold Proc.again
        rw [h1, h2]
      · rcases hc h e with e' | ⟨h', e'⟩
        · exact hnq e'
        · exact hnc h' e'

section Step
variable {s : Io} {h : Nat} {i : Micro} {rest : List Micro}

theorem head_mem (ht : s.todo h = i :: rest) : i ∈ s.todo h := by
  rw [ht]
  exact .head _

variable {new : List Micro} {p : Pid} {o : Stream} {j : Micro} {h' ep w k : Nat} {r : Reader}

theorem after_old (hj : j ∈ (s.after h i rest).todo h') :
    (h' = h ∧ j ∈ (exec h i (s.pop h rest)).2) ∨ j ∈ (s.pop h rest).todo h' := by
  unfold after at hj
  dsimp only at hj ⊢
  by_cases e : h' = h
  · rw [e, update_self] at hj ⊢
    rcases List.mem_append.mp hj with hj | hj
    · exact .inl ⟨rfl, hj⟩
    · exact .inr hj
  · rw [update_of_ne e] at hj ⊢
    exact .inr hj

theorem mem_pop (ht : s.todo h = i :: rest) (hj : j ∈ (s.pop h rest).todo h') : j ∈ s.todo h' := by
  dsimp only at hj
  by_cases e : h' = h
  · rw [e, update_self] at hj
    rw [e, ht]
    exact .tail _ hj
  · rw [update_of_ne e] at hj
    exact hj

theorem after_keep (ht : s.todo h = i :: rest) (hj : j ∈ s.todo h') :
    (h' = h ∧ j = i) ∨ j ∈ (s.after h i rest).todo h' := by
  unfold after
  dsimp only
  by_cases e : h' = h
  · rw [e, ht] at hj
    rw [e, update_self]
    rcases List.mem_cons.mp hj with hj | hj
    · exact .inl ⟨rfl, hj⟩
    · exact .inr (List.mem_append_right _ hj)
  · rw [update_of_ne e]
    exact .inr hj

theorem after_new (hj : j ∈ (exec h i (s.pop h rest)).2) : (s.after h i rest).Pending j := by
  refine ⟨h, ?_⟩
  unfold after
  dsimp only
  rw [update_self]
  exact List.mem_append_left _ hj

theorem pending_keep (ht : s.todo h = i :: rest) (hj : s.Pending j) : j = i ∨ (s.after h i rest).Pending j := by
  obtain ⟨h', hj⟩ := hj
  rcases after_keep ht hj with ⟨-, e⟩ | hj
  · exact .inl e
  · exact .inr ⟨h', hj⟩

theorem pending_pop (hj : (s.pop h rest).Pending j) : (s.after h i rest).Pending j := by
  obtain ⟨h', hj⟩ := hj
  refine ⟨h', ?_⟩
  unfold after
  dsimp only at hj ⊢
  by_cases e : h' = h
  · rw [e, update_self] at hj ⊢
    exact List.mem_append_right _ hj
  · rw [update_of_ne e] at hj ⊢
    exact hj

theorem bound_update (hs : IoInv s) (ht : s.todo h = i :: rest) {l : List Micro} (h' : Nat)
    (hne : update s.todo h l h' ≠ []) : h' < s.harts := by
  refine hs.bound h' ?_
  by_cases e : h' = h
  · rw [e, ht]
    exact List.cons_ne_nil _ _
  · rw [update_of_ne e] at hne
    exact hne

/-! ### Processes -/

/-- The process on a hart that reads. -/
theorem reader_proc (hs : IoInv s) (ht : s.todo h = i :: rest) (hr : i.reader = some r) :
    rest = [] ∧ ∃ p pc, s.os.proc (s.os.current h) = some p ∧ p.trap = .ecall pc r.call ∧ p.sepc = pc + 4 := by
  have hmem := head_mem ht
  obtain ⟨hone, hp⟩ := hs.reads h i r hmem hr
  rw [ht] at hone
  exact ⟨(List.cons.inj hone).2, hp⟩

theorem after_sleeper (hsl : i.sleeper s.os = some r) :
    (s.after h i rest).os = s.os.sleepIn h r ∧ (exec h i (s.pop h rest)).2 = [] := by
  have hsl' : i.sleeper (s.pop h rest).os = some r := hsl
  have he := exec_sleeper (h := h) hsl'
  exact ⟨congrArg Prod.fst he, congrArg Prod.snd he⟩

/-- Who sleeps afterwards slept before, or goes to sleep with this. -/
theorem blocked_after (hs : IoInv s) (ht : s.todo h = i :: rest) (hb : (s.after h i rest).os.Blocked p o) :
    s.os.Blocked p o ∨ ∃ r, i.sleeper s.os = some r ∧ p = s.os.current h ∧ o = r.stream := by
  cases hsl : i.sleeper s.os with
  | none =>
    left
    have hawake : i.sleeper (s.pop h rest).os = none := hsl
    obtain ⟨hframes, hqueued, hcurrent, -⟩ := exec_awake hawake
    refine hb.back (hframes p) (fun hq => hqueued.subset hq) fun h' hc => ?_
    by_cases hoff : ∃ q ep, i = .handOff q ep
    · obtain ⟨q, ep, rfl⟩ := hoff
      change p ∈ ((((s.os.setEndpoint ep _).enqueue (s.os.current h)).enqueue q).leave h).queued ∨
        ∃ h', ((((s.os.setEndpoint ep _).enqueue (s.os.current h)).enqueue q).leave h).current h' = p
      by_cases e : h' = h
      · rw [← hc, e]
        simp
      · right
        exact ⟨h', (update_of_ne e ..).trans hc⟩
    · right
      refine ⟨h', ?_⟩
      change (exec h i (s.pop h rest)).1.current h' = p
      rw [hcurrent fun q ep e => hoff ⟨q, ep, e⟩]
      exact hc
  | some r =>
    obtain ⟨-, a, pc, ha, htrap, hsepc⟩ := reader_proc hs ht (Next.sleeper_reader hsl)
    rw [(after_sleeper hsl).1] at hb
    by_cases hp : p = s.os.current h
    · refine .inr ⟨r, rfl, hp, ?_⟩
      obtain ⟨⟨a', pc', call, hp', -, hagain, hcall⟩, -⟩ := hb
      rw [proc_sleepIn, if_pos hp, hp, ha] at hp'
      cases hp'
      unfold Proc.again Proc.rewind at hagain
      rw [htrap] at hagain
      dsimp only at hagain
      split at hagain
      · cases hagain
        cases r <;> cases hcall <;> rfl
      · cases hagain
    · left
      refine hb.back ?_ ?_ ?_
      · rw [proc_sleepIn, if_neg hp]
        exact Os.Each.refl SameFrame.refl s.os p
      · rw [queued_sleepIn]
        exact id
      · intro h' hc
        refine .inr ⟨h', ?_⟩
        rw [current_sleepIn, update_of_ne (fun e => hp (by rw [← hc, e]))]
        exact hc

theorem after_some (s : Io) (h : Nat) (i : Micro) (rest : List Micro) (p : Pid) :
    ((s.after h i rest).os.proc p).isSome = (s.os.proc p).isSome := by
  cases hsl : i.sleeper s.os with
  | none =>
    have hf := (exec_awake (h := h) (s := s.pop h rest) hsl).1 p
    change ((exec h i (s.pop h rest)).1.proc p).isSome = _
    revert hf
    generalize (exec h i (s.pop h rest)).1.proc p = b, s.os.proc p = a
    intro hf
    cases hf <;> rfl
  | some r =>
    rw [(after_sleeper hsl).1, proc_sleepIn]
    split
    · rw [Option.isSome_map]
    · rfl

theorem update_zero (c : Nat → Pid) (h h' : Nat) : update c h 0 h' = c h' ∨ h' = h ∧ update c h 0 h' = 0 := by
  by_cases e : h' = h
  · rw [e, update_self]
    exact .inr ⟨rfl, rfl⟩
  · exact .inl (update_of_ne e ..)

/-- Harts keep their process, or lose it. -/
theorem after_current (s : Io) (h : Nat) (i : Micro) (rest : List Micro) (h' : Nat) :
    (s.after h i rest).os.current h' = s.os.current h' ∨ (h' = h ∧ (s.after h i rest).os.current h' = 0) := by
  cases hsl : i.sleeper s.os with
  | none =>
    by_cases hoff : ∃ q ep, i = .handOff q ep
    · obtain ⟨q, ep, rfl⟩ := hoff
      exact update_zero s.os.current h h'
    · left
      exact congrFun ((exec_awake (s := s.pop h rest) hsl).2.2.1 fun q ep e => hoff ⟨q, ep, e⟩) h'
  | some r =>
    rw [(after_sleeper hsl).1, current_sleepIn]
    exact update_zero s.os.current h h'

/-- Harts that lose their process do not get the one of another hart by it. -/
theorem alone_of_lost {c c' : Nat → Pid} (hc : ∀ h', c' h' = c h' ∨ c' h' = 0)
    (ha : ∀ h h', c h = c h' → c h ≠ 0 → h = h') (h1 h2 : Nat) (he : c' h1 = c' h2) (h0 : c' h1 ≠ 0) : h1 = h2 := by
  have e1 := (hc h1).resolve_right h0
  have e2 := (hc h2).resolve_right (he ▸ h0)
  rw [e1] at h0
  rw [e1, e2] at he
  exact ha h1 h2 he h0

/-- A process that reads on some hart after the step is as it was. -/
theorem reading_frame (rest : List Micro) (hs : IoInv s) (hj : j ∈ s.todo h') (hr : j.reader = some r)
    (hne : i.sleeper s.os = none ∨ h' ≠ h) (hoff : h' = h → ∀ q ep, i ≠ .handOff q ep) :
    (s.after h i rest).os.current h' = s.os.current h' ∧
      ∃ p pc, (s.after h i rest).os.proc (s.os.current h') = some p ∧ p.trap = .ecall pc r.call ∧ p.sepc = pc + 4 := by
  obtain ⟨-, p, pc, hp, htrap, hsepc⟩ := hs.reads h' j r hj hr
  have h0 : s.os.current h' ≠ 0 := hs.ne_zero (by rw [hp]; rfl)
  cases hsl : i.sleeper s.os with
  | none =>
    obtain ⟨hframes, -, hcurrent, -⟩ := exec_awake (s := s.pop h rest) hsl
    obtain ⟨p', hp', h1, h2, -⟩ := hframes.some hp
    refine ⟨?_, p', pc, hp', h1.trans htrap, h2.trans hsepc⟩
    by_cases e : h' = h
    · exact congrFun (hcurrent (hoff e)) h'
    · rcases after_current s h i rest h' with e' | ⟨e', -⟩
      · exact e'
      · exact absurd e' e
  | some r' =>
    have hne : h' ≠ h := hne.resolve_left (by rw [hsl]; exact nofun)
    have hcur : s.os.current h' ≠ s.os.current h := fun e => hne (hs.alone h' h e h0)
    rw [(after_sleeper hsl).1, current_sleepIn, proc_sleepIn, if_neg hcur, update_of_ne hne]
    exact ⟨rfl, p, pc, hp, htrap, hsepc⟩

/-- What is behind a thing in its list reads nothing. -/
theorem reader_rest (hs : IoInv s) (ht : s.todo h = i :: rest) (hj : j ∈ (s.pop h rest).todo h')
    (hr : j.reader = some r) : h' ≠ h ∧ j ∈ s.todo h' := by
  refine ⟨fun e => ?_, mem_pop ht hj⟩
  subst e
  have hone := (hs.reads h' j r (mem_pop ht hj) hr).1
  dsimp only at hj
  rw [update_self] at hj
  rw [ht] at hone
  rw [(List.cons.inj hone).2] at hj
  cases hj

/-- What reads after the step read before it. -/
theorem reader_after (hs : IoInv s) (ht : s.todo h = i :: rest) (hj : j ∈ (s.after h i rest).todo h')
    (hr : j.reader = some r) : ∃ j', j' ∈ s.todo h' ∧ j'.reader = some r := by
  rcases after_old hj with ⟨rfl, hnew⟩ | hold
  · exact ⟨i, head_mem ht, (Next.reader (exec_next _ _ _) hnew hr).1⟩
  · exact ⟨j, (reader_rest hs ht hold hr).2, hr⟩

section
variable (hs : IoInv s) (ht : s.todo h = i :: rest) (h' : Nat) (j : Micro) (r : Reader)
  (hj : j ∈ (s.after h i rest).todo h') (hr : j.reader = some r)
include hs ht hj hr

theorem reads_after :
    (s.after h i rest).todo h' = [j] ∧ ∃ p pc, (s.after h i rest).os.proc ((s.after h i rest).os.current h') = some p ∧
      p.trap = .ecall pc r.call ∧ p.sepc = pc + 4 := by
  rcases after_old hj with ⟨rfl, hnew⟩ | hold
  · -- the call goes on
    obtain ⟨hir, hone⟩ := Next.reader (exec_next _ _ _) hnew hr
    have hmem := head_mem ht
    have hawake : i.sleeper s.os = none := by
      cases hsl : i.sleeper s.os with
      | none => rfl
      | some r' =>
        rw [(after_sleeper hsl).2] at hnew
        cases hnew
    have hoff : ∀ q ep, i ≠ .handOff q ep := fun q ep e => by
      rw [e] at hir
      cases hir
    obtain ⟨hcur, hp⟩ := reading_frame rest hs hmem hir (.inl hawake) fun _ => hoff
    refine ⟨?_, by rw [hcur]; exact hp⟩
    have hrest := (reader_proc hs ht hir).1
    unfold after
    dsimp only
    rw [update_self, hone, hrest]
    rfl
  · obtain ⟨hne, hold⟩ := reader_rest hs ht hold hr
    obtain ⟨hcur, hp⟩ := reading_frame rest hs hold hr (.inr hne) fun e => absurd e hne
    refine ⟨?_, by rw [hcur]; exact hp⟩
    unfold after
    dsimp only
    rw [update_of_ne hne]
    exact (hs.reads h' j r hold hr).1

theorem excl_after : (∀ p, ¬(s.after h i rest).os.Blocked p r.stream) ∧
      ∀ h'' j' r', j' ∈ (s.after h i rest).todo h'' → j'.reader = some r' → r'.stream = r.stream → h'' = h' := by
  obtain ⟨j0, hj0, hr0⟩ := reader_after hs ht hj hr
  obtain ⟨hnob, huniq⟩ := hs.excl h' j0 r hj0 hr0
  refine ⟨fun p hb => ?_, fun h'' j' r' hj' hr' he => ?_⟩
  · rcases blocked_after hs ht hb with hb | ⟨r1, hsl, -, ho⟩
    · exact hnob p hb
    · -- who goes to sleep on the stream is the only one that read it, and does so no longer
      have hmem := head_mem ht
      have hh := huniq h i r1 hmem (Next.sleeper_reader hsl) ho.symm
      subst hh
      rcases after_old hj with ⟨-, hnew⟩ | hold
      · rw [(after_sleeper hsl).2] at hnew
        cases hnew
      · exact absurd rfl (reader_rest hs ht hold hr).1
  · obtain ⟨j1, hj1, hr1⟩ := reader_after hs ht hj' hr'
    exact huniq h'' j1 r' hj1 hr1 he

end

/-! ### Slots -/

/-- Who is in the slot of a stream has a process. -/
theorem enlisted_some (hs : IoInv s) (he : s.Enlisted p o) : (s.os.proc p).isSome = true := by
  rcases he with hb | ⟨h', j, hj, ho, rfl⟩
  · obtain ⟨⟨a, _, _, hp, _⟩, _⟩ := hb
    rw [hp]
    rfl
  · obtain ⟨r, hr, -⟩ := enlisted_reader ho
    obtain ⟨-, p, -, hp, -⟩ := hs.reads h' j r hj hr
    rw [hp]
    rfl

theorem coming_after (ht : s.todo h = i :: rest) (hc : s.Coming p) : (s.after h i rest).Coming p := by
  have hqueue : ∀ q, q ∈ s.os.queued → q ∈ (s.after h i rest).os.queued := by
    intro q hq
    cases hsl : i.sleeper s.os with
    | none => exact (exec_awake (s := s.pop h rest) hsl).2.1.subset hq
    | some r =>
      rw [(after_sleeper hsl).1, queued_sleepIn]
      exact hq
  rcases hc with hq | hp | ⟨ep, hp⟩
  · exact .inl (hqueue p hq)
  · rcases pending_keep ht hp with rfl | hp
    · left
      change p ∈ (s.os.enqueue p).queued
      simp
    · exact .inr (.inl hp)
  · rcases pending_keep ht hp with rfl | hp
    · left
      change p ∈ ((((s.os.setEndpoint ep _).enqueue (s.os.current h)).enqueue p).leave h).queued
      simp
    · exact .inr (.inr ⟨ep, hp⟩)

section
variable (hs : IoInv s) (ht : s.todo h = i :: rest)
include hs ht

/-- A hart that reads after the step has the process it had. -/
theorem reader_current {j : Micro} {h' : Nat} {r : Reader} (hj : j ∈ (s.after h i rest).todo h')
    (hr : j.reader = some r) : (s.after h i rest).os.current h' = s.os.current h' := by
  obtain ⟨-, p, -, hp, -⟩ := reads_after hs ht h' j r hj hr
  rcases after_current s h i rest h' with e | ⟨-, e⟩
  · exact e
  · refine absurd e (hs.ne_zero ?_)
    rw [← after_some s h i rest, hp]
    rfl

/-- Who is in a slot after the step was in it before, or has just registered. -/
theorem enlisted_after {p : Pid} {o : Stream} (he : (s.after h i rest).Enlisted p o) :
    s.Enlisted p o ∨ ∃ r, i = .register r ∧ r.stream = o ∧ p = s.os.current h := by
  have hmem := head_mem ht
  rcases he with hb | ⟨h', j, hj, ho, hcur⟩
  · rcases blocked_after hs ht hb with hb | ⟨r, hsl, rfl, rfl⟩
    · exact .inl (.inl hb)
    · exact .inl (.inr ⟨h, i, hmem, (sleeper_enlisted hsl).1, rfl⟩)
  · obtain ⟨r, hr, -⟩ := enlisted_reader ho
    rw [reader_current hs ht hj hr] at hcur
    rcases after_old hj with ⟨rfl, hnew⟩ | hold
    · rcases (exec_next _ _ _).enlisted hnew ho with hi | ⟨r', rfl, hr'⟩
      · exact .inl (.inr ⟨h', i, hmem, hi, hcur⟩)
      · exact .inr ⟨r', rfl, hr', hcur.symm⟩
    · exact .inl (.inr ⟨h', j, mem_pop ht hold, ho, hcur⟩)

/-- Nobody else is in the slot of a stream that hart `h` reads. -/
theorem enlisted_excl {p : Pid} {r : Reader} (hi : i.reader = some r) (hn : i.enlisted = none) :
    ¬s.Enlisted p r.stream := by
  have hmem := head_mem ht
  obtain ⟨hnob, huniq⟩ := hs.excl h i r hmem hi
  rintro (hb | ⟨h', j, hj, ho, -⟩)
  · exact hnob p hb
  · obtain ⟨r', hr', he⟩ := enlisted_reader ho
    have hh := huniq h' j r' hj hr' he
    subst hh
    have hone := (hs.reads h' i r hmem hi).1
    rw [hone] at hj
    rw [List.mem_singleton.mp hj, hn] at ho
    cases ho

theorem slot_after (p : Pid) (o : Stream) (he : (s.after h i rest).Enlisted p o) :
    (s.after h i rest).os.waiter o = p ∨ (s.after h i rest).Coming p := by
  rcases enlisted_after hs ht he with hold | ⟨r, rfl, rfl, rfl⟩
  · rcases hs.slot p o hold with hw | hc
    · by_cases hsl : i.slot = some o
      · -- the slot is taken by someone who will wake the reader
        have hpos := hs.pos p (enlisted_some hs hold)
        cases i with
        | register r | retract r =>
          cases hsl
          exact absurd hold (enlisted_excl hs ht rfl rfl)
        | swap o' =>
          cases hsl
          right
          refine .inr (.inl (after_new ?_))
          simp [exec, hw, hpos]
        | swapFast own ep =>
          cases hsl
          right
          refine .inr (.inr ⟨own, after_new ?_⟩)
          simp [exec, hw, hpos]
        | _ => cases hsl
      · left
        exact (exec_waiter o hsl).trans hw
    · exact .inr (coming_after ht hc)
  · left
    change (s.os.setWaiter r.stream (s.os.current h)).waiter r.stream = _
    cases r <;> simp [setWaiter, waiter, Reader.stream]

end

/-! ### Data -/

theorem swapping_after (ht : s.todo h = i :: rest) (hi : i.slot ≠ some o) (hsw : s.Swapping o) :
    (s.after h i rest).Swapping o := by
  rcases hsw with hp | ⟨own, ep, rfl, hp⟩
  · rcases pending_keep ht hp with rfl | hp
    · exact absurd rfl hi
    · exact .inl hp
  · rcases pending_keep ht hp with rfl | hp
    · exact absurd rfl hi
    · exact .inr ⟨own, ep, rfl, hp⟩

/-! ### Closed ends -/

/-- Some endpoint loses a reference with this for good. -/
def Micro.Leaks (i : Micro) (ep : Nat) (s : Os) : Prop :=
  (∃ r, i.sleeper s = some r ∧ r.stream = .channel ep) ∨ ∃ p, i = .handOff p ep

theorem lost_of_leak (hl : i.Leaks ep s.os) :
    ((s.after h i rest).os.endpoints ep).lost = (s.os.endpoints ep).lost + 1 := by
  rcases hl with ⟨r, hsl, hr⟩ | ⟨p, rfl⟩
  · rw [(after_sleeper hsl).1]
    cases r <;> cases hr <;> simp [sleepIn, Reader.stream]
  · change (((((s.os.setEndpoint ep _).enqueue _).enqueue p).leave h).endpoints ep).lost = _
    simp

theorem lost_same (hl : ¬i.Leaks ep s.os) :
    ((s.after h i rest).os.endpoints ep).lost = (s.os.endpoints ep).lost := by
  cases hsl : i.sleeper s.os with
  | none => exact (exec_awake (s := s.pop h rest) hsl).2.2.2 ep fun p e => hl (.inr ⟨p, e⟩)
  | some r =>
    rw [(after_sleeper hsl).1]
    unfold sleepIn
    split
    · rename_i ep' he
      rw [endpoints_sleepAgain, endpoints_setEndpoint]
      split
      · rename_i e
        subst e
        exact absurd (.inl ⟨r, hsl, he⟩) hl
      · rfl
    · rfl

theorem lost_le (ep : Nat) : (s.os.endpoints ep).lost ≤ ((s.after h i rest).os.endpoints ep).lost := by
  by_cases hl : i.Leaks ep s.os
  · rw [lost_of_leak hl]
    omega
  · rw [lost_same hl]

theorem peer_after (ep : Nat) : (s.after h i rest).peer ep = s.peer ep := (exec_endpoint (s := s.pop h rest) ep).1

/-- A reference that is lost was held. -/
theorem leaks_holds (hl : i.Leaks ep s.os) : i.holds ep = true := by
  rcases hl with ⟨r, hsl, hr⟩ | ⟨p, rfl⟩
  · rw [Next.holds_of_reader (Next.sleeper_reader hsl), hr]
    exact beq_self_eq_true _
  · exact beq_self_eq_true _

/-- With its last handle an endpoint begins to end. -/
theorem dropping_close (hs : IoInv s) (ht : s.todo h = .closeHandle w :: rest) (hh : (s.os.endpoints w).handles ≤ 1)
    (hl : (s.os.endpoints w).lost = 0) : (s.after h (.closeHandle w) rest).Dropping w := by
  let s1 : Io := { s.pop h rest with os := s.os.setEndpoint w fun e => { e with handles := e.handles - 1 } }
  have hnew : (exec h (.closeHandle w) (s.pop h rest)).2 = s1.unref w := rfl
  by_cases ha : s1.alive w = true
  · have hb : ∀ h', s1.todo h' ≠ [] → h' < s1.harts := bound_update hs ht
    rcases (alive_iff hb).mp ha with h1 | h1 | ⟨j, hp, hj⟩
    · refine absurd h1 ?_
      change ¬0 < ((s.os.setEndpoint w fun e => { e with handles := e.handles - 1 }).endpoints w).handles
      simp only [endpoints_setEndpoint, if_true]
      omega
    · refine absurd h1 ?_
      change ¬0 < ((s.os.setEndpoint w fun e => { e with handles := e.handles - 1 }).endpoints w).lost
      simp only [endpoints_setEndpoint, if_true]
      omega
    · have hp' : (s.pop h rest).Pending j := hp
      exact .inr ⟨j, pending_pop hp', hj⟩
  · refine .inl (after_new ?_)
    rw [hnew, unref, if_neg ha]
    exact List.mem_singleton_self _

/-- Handles go with `close` only. -/
theorem handles_after (hh : ((s.after h i rest).os.endpoints w).handles = 0) :
    (s.os.endpoints w).handles = 0 ∨ i = .closeHandle w ∧ (s.os.endpoints w).handles = 1 := by
  by_cases hi : i = .closeHandle w
  · subst hi
    have he : ((s.after h (.closeHandle w) rest).os.endpoints w).handles = (s.os.endpoints w).handles - 1 := by
      change (((s.os.setEndpoint w fun e => { e with handles := e.handles - 1 }).setA0 _ 0).endpoints w).handles = _
      simp
    have hcases : (s.os.endpoints w).handles = 0 ∨ (s.os.endpoints w).handles = 1 := by omega
    exact hcases.imp id fun e => ⟨rfl, e⟩
  · left
    rw [← (exec_endpoint (s := s.pop h rest) w).2.1 hi]
    exact hh

/-- Whose reference is lost has handles, or nobody sleeps across. -/
theorem leaks_safe (hk : i.Leaks w s.os) (hsafe : i.Safe s.os) (hh : (s.os.endpoints w).handles = 0) :
    s.os.NobodyAcross w := by
  rcases hk with ⟨r, hsl, hr⟩ | ⟨q, rfl⟩
  · rcases sleeper_cases hsl with ⟨_, _, rfl, rfl, hq⟩ | ⟨_, _, -, rfl, -⟩ | ⟨_, _, _, rfl, rfl, hc⟩
    · cases hr
      exact (hsafe hq).2 hh
    · cases hr
    · cases hr
      exact (hsafe hc).2 hh
  · exact hsafe hh

/-- The reader is told by who finds out that the peer is gone. -/
theorem swapping_told (hs : IoInv s) (hl : 0 < (s.os.endpoints ep).lost) :
    (s.after h (.dropEndpoint (s.peer ep)) rest).Swapping (.channel ep) := by
  have hpair : (s.os.endpoints (s.peer ep)).peer = ep := hs.pairs ep
  have halive : (s.pop h rest).alive ep = true := by
    simp [alive, hl]
  refine .inl (after_new ?_)
  unfold exec
  dsimp only
  rw [hpair, if_pos halive]
  exact .head _

theorem handles_le (ep : Nat) : ((s.after h i rest).os.endpoints ep).handles ≤ (s.os.endpoints ep).handles := by
  by_cases hi : i = .closeHandle ep
  · subst hi
    change (((s.os.setEndpoint ep fun e => { e with handles := e.handles - 1 }).setA0 _ 0).endpoints ep).handles ≤ _
    simp
  · exact ((exec_endpoint (h := h) ep).2.1 hi).le

/-- Who finds out that the peer of a living endpoint is gone leaves it word. -/
theorem closed_told (hs : IoInv s) (ha : (s.after h (.dropEndpoint (s.peer ep)) rest).alive ep = true) :
    ((s.after h (.dropEndpoint (s.peer ep)) rest).os.endpoints ep).peerClosed = true := by
  have hpair : (s.os.endpoints (s.peer ep)).peer = ep := hs.pairs ep
  have hexec : exec h (.dropEndpoint (s.peer ep)) (s.pop h rest) =
      if (s.pop h rest).alive ep then (s.os.setEndpoint ep fun e => { e with peerClosed := true },
        [.swap (.channel ep), .release ep]) else (s.os, []) := by
    unfold exec
    dsimp only
    rw [hpair]
  by_cases hp : (s.pop h rest).alive ep = true
  · rw [if_pos hp] at hexec
    unfold after
    rw [hexec]
    simp
  · -- nothing is done, so that the endpoint is as alive as it was
    rw [if_neg hp] at hexec
    unfold after at ha
    rw [hexec] at ha
    exact absurd ha hp

/-! ### Pipes -/

theorem sleeper_pipe {len : Nat} {s : Os} (hsl : i.sleeper s = some (.readPipe k len)) :
    i = .recvAgain (.readPipe k len) ∧ (s.pipes k).writers ≠ 0 := by
  rcases sleeper_cases hsl with ⟨_, _, -, hr, -⟩ | ⟨_, _, hi, hr, hw⟩ | ⟨_, _, _, -, hr, -⟩ <;> cases hr
  exact ⟨hi, hw⟩

/-- A reader of a pipe begins to wait with the lock, and finds nothing. -/
theorem locked_new (hr : r.stream = .pipe k) (hnew : .register r ∈ (exec h (.recv r) (s.pop h rest)).2) :
    ((s.after h (.recv r) rest).os.pipes k).locked = true ∧ (s.after h (.recv r) rest).os.hasData (.pipe k) = false := by
  cases r with
  | readPipe k' len =>
    cases hr
    change ((exec h _ (s.pop h rest)).1.pipes k).locked = true ∧ (exec h _ (s.pop h rest)).1.hasData _ = false
    revert hnew
    unfold exec
    dsimp only
    split
    · intro hnew
      cases List.mem_singleton.mp hnew
    · split
      · intro hnew
        cases hnew
      · rename_i hnone
        have hd := tryRecv_none hnone
        split
        · intro hnew
          cases hnew
        · intro _
          refine ⟨by simp, ?_⟩
          simpa [hasData, Reader.stream] using hd
  | _ => cases hr

theorem Next.registers {s : Io} (hn : Next s i new) (hj : .register r ∈ new) :
    i = .recv r ∨ ∃ ep b n, r = .channelRead ep b n := by
  have hone := (hn.reader hj rfl).2
  cases hn with
  | done | retract =>
    rename_i r'
    cases r' <;> cases hone
  | enlist =>
    cases hone
    exact .inl rfl
  | opened =>
    cases hone
    exact .inr ⟨_, _, _, rfl⟩
  | _ => cases hone

theorem Next.looks {s : Io} (hn : Next s i new) (hj : .recvAgain r ∈ new) : i = .register r := by
  have hone := (hn.reader hj rfl).2
  cases hn with
  | done | retract =>
    rename_i r'
    cases r' <;> cases hone
  | again =>
    cases hone
    rfl
  | _ => cases hone

theorem pos_after (hs : IoInv s) (p : Pid) (hp : ((s.after h i rest).os.proc p).isSome = true) : 0 < p := by
  rw [after_some] at hp
  exact hs.pos p hp

/-! ### What is kept -/

section
variable (hs : IoInv s) (ht : s.todo h = i :: rest)
include hs ht

variable {p : Pid} {o : Stream} {ep : Nat}

/-- The slot of a stream with a sleeping or looking reader is changed by taking it only. -/
theorem waiter_after (he : s.Enlisted p o) (hw : (s.after h i rest).os.waiter o = p) :
    i.slot ≠ some o ∧ s.os.waiter o = p := by
  have hpos := hs.pos p (enlisted_some hs he)
  have hne : i.slot ≠ some o := by
    intro hsl
    have h0 : ∀ {q : Pid}, q = p → q ≠ 0 := fun e e0 => by
      rw [← e, e0] at hpos
      exact absurd hpos (by decide)
    cases i with
    | register r | retract r =>
      cases hsl
      exact enlisted_excl hs ht rfl rfl he
    | swap o' =>
      cases hsl
      refine h0 hw ?_
      change (s.os.setWaiter o 0).waiter o = 0
      cases o <;> simp [setWaiter, waiter]
    | swapFast own ep =>
      cases hsl
      refine h0 hw ?_
      change (s.os.setWaiter (.channel ep) 0).waiter (.channel ep) = 0
      simp [setWaiter, waiter]
    | _ => cases hsl
  exact ⟨hne, (exec_waiter (s := s.pop h rest) o hne).symm.trans hw⟩

/-- Where there was something to read before, nobody comes to watch. -/
theorem watching_after (hwatch : (s.after h i rest).Watching p o) (hd : s.os.hasData o = true) :
    s.Watching p o := by
  have hmem := head_mem ht
  rcases hwatch with hb | ⟨h', j, hj, ho, hcur⟩
  · rcases blocked_after hs ht hb with hb | ⟨r, hsl, rfl, rfl⟩
    · exact .inl hb
    · rcases (sleeper_enlisted hsl).2 with hn | hn | ⟨k, len, rfl, rfl, -⟩
      · rw [hd] at hn
        cases hn
      · exact .inr ⟨h, i, hmem, hn, rfl⟩
      · have hn := (hs.locked h _ k (.inr hmem) rfl).2
        rw [show (Reader.readPipe k len).stream = .pipe k from rfl, hn] at hd
        cases hd
  · obtain ⟨r, hr, -⟩ := enlisted_reader (watches_enlisted ho)
    rw [reader_current hs ht hj hr] at hcur
    rcases after_old hj with ⟨rfl, hnew⟩ | hold
    · have hn := ((exec_next _ _ _).watches hnew ho).2
      rw [hd] at hn
      cases hn
    · exact .inr ⟨h', j, mem_pop ht hold, ho, hcur⟩

theorem full_after (p : Pid) (o : Stream)
    (hwatch : (s.after h i rest).Watching p o) (hw : (s.after h i rest).os.waiter o = p)
    (hd : (s.after h i rest).os.hasData o = true) : (s.after h i rest).Swapping o := by
  rcases exec_hasData o hd with hd0 | hsw | ⟨own, ep, rfl, hsw⟩
  · have hold : s.Watching p o := watching_after hs ht hwatch hd0
    obtain ⟨hne, hw0⟩ := waiter_after hs ht hold.enlisted hw
    exact swapping_after ht hne (hs.full p o hold hw0 hd0)
  · exact .inl (after_new hsw)
  · exact .inr ⟨own, ep, rfl, after_new hsw⟩

theorem lost_after (p : Pid) (ep : Nat)
    (hb : (s.after h i rest).os.Blocked p (.channel ep)) : 0 < ((s.after h i rest).os.endpoints ep).lost := by
  rcases blocked_after hs ht hb with hb | ⟨r, hsl, -, ho⟩
  · exact Nat.lt_of_lt_of_le (hs.lost p ep hb) (lost_le ep)
  · rw [lost_of_leak (.inl ⟨r, hsl, ho.symm⟩)]
    omega

/-- An endpoint without handles and lost references that is in use stays so, or its end is found out. -/
theorem dropping_after {w : Nat} (hd : s.Dropping w)
    (hh : (s.os.endpoints w).handles = 0) (hl : (s.os.endpoints w).lost = 0) (hk : ¬i.Leaks w s.os) :
    (s.after h i rest).Dropping w ∨ i = .dropEndpoint w := by
  have hnext := exec_next h i (s.pop h rest)
  rcases hd with hp | ⟨j, hp, hj⟩
  · rcases pending_keep ht hp with e | hp
    · exact .inr e.symm
    · exact .inl (.inl hp)
  · rcases pending_keep ht hp with rfl | hp
    · left
      rcases hnext.holds_kept hj with ⟨j', hj', hh'⟩ | rfl | hleak | hleak
      · exact .inr ⟨j', after_new hj', hh'⟩
      · -- the reference is given up
        by_cases ha : (s.pop h rest).alive w = true
        · rcases (alive_iff (bound_update hs ht)).mp ha with h1 | h1 | ⟨j', hp', hh'⟩
          · exact absurd h1 (by change ¬0 < (s.os.endpoints w).handles; omega)
          · exact absurd h1 (by change ¬0 < (s.os.endpoints w).lost; omega)
          · exact .inr ⟨j', pending_pop hp', hh'⟩
        · refine .inl (after_new ?_)
          simp [exec, unref, ha]
      · exact absurd (.inl hleak) hk
      · exact absurd (.inr hleak) hk
    · exact .inl (.inr ⟨j, hp, hj⟩)

theorem alive_of_holds (hh : i.holds ep = true) : s.alive ep = true :=
  (alive_iff hs.bound).mpr (.inr (.inr ⟨i, ⟨h, head_mem ht⟩, hh⟩))

/-- Who goes to sleep on a channel without a peer to speak of has the end of the peer coming. -/
theorem gone_sleeper (hsafe : i.Safe s.os) {r : Reader} (hsl : i.sleeper s.os = some r)
    (hr : r.stream = .channel ep) (hh : (s.os.endpoints (s.peer ep)).handles = 0) :
    (s.os.endpoints (s.peer ep)).lost = 0 ∧ s.Dropping (s.peer ep) := by
  have halive : s.alive ep = true := alive_of_holds hs ht (leaks_holds (.inl ⟨r, hsl, hr⟩))
  rcases sleeper_cases hsl with ⟨_, _, rfl, rfl, hq⟩ | ⟨_, _, -, rfl, -⟩ | ⟨_, _, _, rfl, rfl, hc⟩
  · cases hr
    exact absurd hh (hsafe hq).1
  · cases hr
  · cases hr
    have hl := (hsafe hc).1 hh
    exact ⟨hl, (hs.closing ep halive hh hl).resolve_left (by rw [hc]; decide)⟩

theorem gone_after (hsafe : i.Safe s.os) (p : Pid) (ep : Nat)
    (hb : (s.after h i rest).os.Blocked p (.channel ep)) (hw : (s.after h i rest).os.waiter (.channel ep) = p)
    (hh : ((s.after h i rest).os.endpoints (s.peer ep)).handles = 0) :
    ((s.after h i rest).os.endpoints (s.peer ep)).lost = 0 ∧
      ((s.after h i rest).Swapping (.channel ep) ∨ (s.after h i rest).Dropping (s.peer ep)) := by
  have hpair : (s.os.endpoints (s.peer ep)).peer = ep := hs.pairs ep
  rcases blocked_after hs ht hb with hold | ⟨r, hsl, rfl, ho⟩
  · have hacross : ¬s.os.NobodyAcross (s.peer ep) := fun hn => hn p (by rw [hpair]; exact hold)
    obtain ⟨hne, hw0⟩ := waiter_after hs ht (.inl hold) hw
    rcases handles_after hh with hh0 | ⟨rfl, hh1⟩
    · obtain ⟨hl, hsd⟩ := hs.gone p ep hold hw0 hh0
      -- a reference is not lost while the reader sleeps on the other end
      have hk : ¬i.Leaks (s.peer ep) s.os := fun hk => hacross (leaks_safe hk hsafe hh0)
      refine ⟨(lost_same hk).trans hl, ?_⟩
      rcases hsd with hsw | hd
      · exact .inl (swapping_after ht hne hsw)
      · rcases dropping_after hs ht hd hh0 hl hk with hd | rfl
        · exact .inr hd
        · exact .inl (swapping_told hs (hs.lost p ep hold))
    · -- the last handle of the peer is closed
      have hl : (s.os.endpoints (s.peer ep)).lost = 0 := by
        by_contra hl
        exact hacross (hsafe hh1 (Nat.pos_of_ne_zero hl))
      refine ⟨(lost_same ?_).trans hl, .inr (dropping_close hs ht (by omega) hl)⟩
      rintro (⟨r, hsl, -⟩ | ⟨q, e⟩)
      · cases hsl
      · cases e
  · have hh0 : (s.os.endpoints (s.peer ep)).handles = 0 := by
      rcases handles_after hh with hh0 | ⟨rfl, -⟩
      · exact hh0
      · cases hsl
    obtain ⟨hl, hd⟩ := gone_sleeper hs ht hsafe hsl ho.symm hh0
    have hk : ¬i.Leaks (s.peer ep) s.os := by
      rintro (⟨r', hsl', hr'⟩ | ⟨q, rfl⟩)
      · rw [hsl] at hsl'
        cases hsl'
        rw [← ho] at hr'
        exact hs.apart ep (Stream.channel.inj hr').symm
      · cases hsl
    refine ⟨(lost_same hk).trans hl, .inr ?_⟩
    rcases dropping_after hs ht hd hh0 hl hk with hd | rfl
    · exact hd
    · cases hsl

theorem bound_after (h' : Nat) (hne : (s.after h i rest).todo h' ≠ []) :
    h' < (s.after h i rest).harts := bound_update hs ht h' hne

theorem alive_pop (ha : (s.pop h rest).alive ep = true) : s.alive ep = true := by
  refine (alive_iff hs.bound).mpr ?_
  rcases (alive_iff (bound_update hs ht)).mp ha with h1 | h1 | ⟨j, ⟨h', hj⟩, hh⟩
  · exact .inl h1
  · exact .inr (.inl h1)
  · exact .inr (.inr ⟨j, ⟨h', mem_pop ht hj⟩, hh⟩)

/-- No endpoint comes back. -/
theorem alive_after (ha : (s.after h i rest).alive ep = true) : s.alive ep = true := by
  rcases (alive_iff (bound_after hs ht)).mp ha with h1 | h1 | ⟨j, ⟨h', hj⟩, hh⟩
  · exact (alive_iff hs.bound).mpr (.inl (Nat.lt_of_lt_of_le h1 (handles_le ep)))
  · by_cases hk : i.Leaks ep s.os
    · exact alive_of_holds hs ht (leaks_holds hk)
    · rw [lost_same hk] at h1
      exact (alive_iff hs.bound).mpr (.inr (.inl h1))
  · rcases after_old hj with ⟨rfl, hnew⟩ | hold
    · rcases (exec_next _ _ _).holds_new hnew hh with hi | hp
      · exact alive_of_holds hs ht hi
      · exact alive_pop hs ht hp
    · exact (alive_iff hs.bound).mpr (.inr (.inr ⟨j, ⟨h', mem_pop ht hold⟩, hh⟩))

theorem closing_after (ep : Nat) (ha : (s.after h i rest).alive ep = true)
    (hh : ((s.after h i rest).os.endpoints (s.peer ep)).handles = 0)
    (hl : ((s.after h i rest).os.endpoints (s.peer ep)).lost = 0) :
    ((s.after h i rest).os.endpoints ep).peerClosed = true ∨ (s.after h i rest).Dropping (s.peer ep) := by
  have hk : ¬i.Leaks (s.peer ep) s.os := fun hk => by
    rw [lost_of_leak hk] at hl
    cases hl
  rw [lost_same hk] at hl
  rcases handles_after hh with hh0 | ⟨rfl, hh1⟩
  · rcases hs.closing ep (alive_after hs ht ha) hh0 hl with hc | hd
    · exact .inl ((exec_endpoint ep).2.2 hc)
    · rcases dropping_after hs ht hd hh0 hl hk with hd | rfl
      · exact .inr hd
      · exact .inl (closed_told hs ha)
  · exact .inr (dropping_close hs ht (by omega) hl)

theorem open_after (hsafe : i.Safe s.os) (p : Pid) (k : Nat)
    (hb : (s.after h i rest).os.Blocked p (.pipe k)) (hw : (s.after h i rest).os.waiter (.pipe k) = p) :
    ((s.after h i rest).os.pipes k).writers ≠ 0 := by
  have hkeep : i ≠ .dropWriter k → ((s.after h i rest).os.pipes k).writers = _ := exec_writers k
  rcases blocked_after hs ht hb with hold | ⟨r, hsl, rfl, ho⟩
  · obtain ⟨-, hw0⟩ := waiter_after hs ht (.inl hold) hw
    have hopen := hs.open' p k hold hw0
    by_cases hi : i = .dropWriter k
    · subst hi
      have hmore : (s.os.pipes k).writers ≠ 1 := fun e => hsafe e p hold hw0
      have he : ((s.after h (.dropWriter k) rest).os.pipes k).writers = (s.os.pipes k).writers - 1 := by
        change (((s.os.setPipe k fun e => { e with writers := e.writers - 1 }).setA0 _ 0).pipes k).writers = _
        simp
      omega
    · rw [hkeep hi]
      exact hopen
  · cases r with
    | readPipe k' len =>
      cases ho
      obtain ⟨rfl, hopen⟩ := sleeper_pipe hsl
      rw [hkeep nofun]
      exact hopen
    | _ => cases ho

theorem locked_after (h' : Nat) (r : Reader) (k : Nat)
    (hj : .register r ∈ (s.after h i rest).todo h' ∨ .recvAgain r ∈ (s.after h i rest).todo h')
    (hr : r.stream = .pipe k) :
    ((s.after h i rest).os.pipes k).locked = true ∧ (s.after h i rest).os.hasData (.pipe k) = false := by
  -- another hart does not touch a pipe that is locked for reading
  have hother : ∀ j, j.reader = some r → j ∈ (s.pop h rest).todo h' →
      ((s.os.pipes k).locked = true ∧ s.os.hasData (.pipe k) = false) →
      ((s.after h i rest).os.pipes k).locked = true ∧ (s.after h i rest).os.hasData (.pipe k) = false := by
    intro j hjr hold hlock
    obtain ⟨hne, hmem⟩ := reader_rest hs ht hold hjr
    have hi : ∀ r', i.reader = some r' → r'.stream ≠ .pipe k := fun r' hr' e =>
      hne ((hs.excl h' j r hmem hjr).2 h i r' (head_mem ht) hr' (e.trans hr.symm)).symm
    obtain ⟨h1, h2⟩ := exec_locked (s := s.pop h rest) k hlock.1 hi
    refine ⟨h1, Bool.eq_false_iff.mpr fun e => ?_⟩
    exact absurd (h2 e) (Bool.eq_false_iff.mp hlock.2)
  rcases hj with hj | hj
  · rcases after_old hj with ⟨rfl, hnew⟩ | hold
    · rcases (exec_next _ _ _).registers hnew with rfl | ⟨ep, b, n, rfl⟩
      · exact locked_new hr hnew
      · cases hr
    · exact hother _ rfl hold (hs.locked h' r k (.inl (mem_pop ht hold)) hr)
  · rcases after_old hj with ⟨rfl, hnew⟩ | hold
    · have hi := (exec_next _ _ _).looks hnew
      subst hi
      have hlock := hs.locked h' r k (.inl (head_mem ht)) hr
      change ((s.os.setWaiter r.stream (s.os.current h')).pipes k).locked = true ∧
        (s.os.setWaiter r.stream (s.os.current h')).hasData (.pipe k) = false
      rw [hr]
      simpa [setWaiter, hasData] using hlock
    · exact hother _ rfl hold (hs.locked h' r k (.inr (mem_pop ht hold)) hr)

/-- What is done keeps the invariant. -/
theorem IoInv.after (hsafe : i.Safe s.os) : IoInv (s.after h i rest) where
  bound := bound_after hs ht
  pairs ep := by
    rw [peer_after, peer_after]
    exact hs.pairs ep
  apart ep := by
    rw [peer_after]
    exact hs.apart ep
  pos := pos_after hs
  alone := alone_of_lost (fun h' => (after_current s h i rest h').imp_right And.right) hs.alone
  reads := reads_after hs ht
  excl := excl_after hs ht
  slot := slot_after hs ht
  full := full_after hs ht
  lost := lost_after hs ht
  gone p ep := by
    rw [peer_after]
    exact gone_after hs ht hsafe p ep
  closing ep := by
    rw [peer_after]
    exact closing_after hs ht ep
  open' := open_after hs ht hsafe
  locked := locked_after hs ht

end

end Step
end OpenV.Sched
