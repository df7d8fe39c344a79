import OpenV.Sync.LockOrder

/- Which calls take a lock that their own hart holds: for every call, the exact
   condition on the state and the arguments. Four mistakes are behind it.

   `exit` and `sys_exec` drop handles under the table lock, and
   `push_pending_accepted` wakes watchers under it, but a wake-up takes that
   lock. The message calls touch user memory under it, but a fault that is not
   resolved by copy-on-write or swap-in looks the process up in the table. A
   process that sends to itself meets its own IPC state. A fork whose clone fails
   cleans up under the table lock. -/
namespace OpenV.Sync

open Cmd Hart

/-- Run by a hart that holds nothing, `c` puts nobody on the run queue. -/
def WakesNobody {α : Type} (c : Run α) (s : Sys) : Prop := (alone c s).2.runQueue = s.runQueue

/-- A fault at the page, if there is one, is resolved without a look at the process table. -/
def Access.settled : Access → Bool
  | .ready | .cow | .swapped => true
  | .demand | .refused => false

def Sys.Settled (s : Sys) (store : Bool) (ptr len : Nat) : Prop :=
  ∀ va ∈ pagesOf ptr len, (s.page va store).settled = true

def Sys.Refuses (s : Sys) (store : Bool) (pages : List Nat) : Prop := ∃ va ∈ pages, s.page va store = .refused

/-- Closing the handles wakes nobody; and if the store that clears the thread id is refused, the
    same holds of the exit that the fault handler makes. -/
def ExitSafe : Nat → Int → Int → Sys → Prop
  | 0, _, _, _ => True
  | n + 1, pid, status, s => WakesNobody (markDead n pid status) s ∧
    ∀ d s', alone (markDead n pid status) s = (.ok (some d), s') → clears d.clearTid →
      s'.Refuses true (pagesOf d.clearTid 4) → ExitSafe n s'.current (-11) s'

def ExecSafe (n : Nat) (a : ExecArgs) (s : Sys) : Prop :=
  a.pointersOk = true → (s.Refuses false a.reads → ExitSafe n s.current (-11) s) ∧
    (¬s.Refuses false a.reads → ∀ s₁, alone (execLoad a) s = (.ok (), s₁) → WakesNobody (execClose n s₁.current) s₁ ∧
      ∀ s₂ s₃, alone (execClose n s₁.current) s₁ = (.ok (), s₂) → alone (execReset s₁.current) s₂ = (.ok (), s₃) →
        s₃.Refuses true (pagesOf (userStackTop - a.stackUsed) a.stackUsed) → ExitSafe n s₃.current (-11) s₃)

def ForkSafe (env : ForkEnv) (s : Sys) : Prop :=
  ∀ child s', alone (processNew env s.current) s = (.ok child, s') → s'.proc s.current ≠ none → env.cloneOk = true

def SendSafe (dest : Int) (ptr : Nat) (s : Sys) : Prop :=
  s.proc s.current ≠ none → ipcOf s.current s ≠ .sendComplete → isUserPointerValid messageSize ptr 1 = true →
    s.Settled false ptr messageSize ∧
    (dest = s.current → ((ipcOf dest s).receives dest || (ipcOf dest s).receivesReply dest) = true)

def IpcState.isAvailable : IpcState → Bool
  | .messageAvailable _ => true
  | _ => false

def IpcState.isSending : IpcState → Bool
  | .sending .. => true
  | _ => false

/-- `sys_ipc_receive` has a message to copy out at once. -/
def Sys.deliverable (s : Sys) (src : Int) : Bool :=
  (ipcOf s.current s).isAvailable ||
  (((s.proc s.current).elim [] Proc.irqPending).find? fun q => src == -1 || src == q).isSome ||
  (((s.proc s.current).elim [] Proc.senders).find? fun q => src == -1 || src == q).any
    fun q => (ipcOf q s).isSending

def ReceiveSafe (src : Int) (ptr : Nat) (s : Sys) : Prop :=
  s.proc s.current ≠ none → s.deliverable src = true → isUserPointerValid messageSize ptr 1 = true →
    s.Settled true ptr messageSize

def SendrecSafe (dest : Int) (ptr : Nat) (s : Sys) : Prop :=
  s.proc s.current ≠ none → match ipcOf s.current s with
    | .messageAvailable _ => s.Settled true ptr messageSize
    | .none => s.Settled false ptr messageSize ∧ dest ≠ s.current
    | _ => True

def PushSafe (sid fd : Nat) (s : Sys) : Prop :=
  ∀ x, s.socketOwner.lookup sid = some x → WakesNobody (wakeOwner x.1 x.2) (s.pushAccepted sid fd)

def Call.Safe (n : Nat) (s : Sys) : Call → Prop
  | .exit pid status => ExitSafe (n + 1) pid status s
  | .exec a => ExecSafe (n + 1) a s
  | .fork env => ForkSafe env s
  | .send dest ptr => SendSafe dest ptr s
  | .receive src ptr => ReceiveSafe src ptr s
  | .sendrec dest ptr => SendrecSafe dest ptr s
  | .pushPendingAccepted sid fd => PushSafe sid fd s

/-! ## Outside the table lock -/

section Free
variable {s : Sys} {g : Run Unit} {store : Bool} {va : Nat}

/-- A fault that is resolved leaves no trace. -/
theorem touch_resolved (h : s.page va store ≠ .refused) : touch g store va ⟨[], s⟩ = (.ok (), ⟨[], s⟩) := by
  show handleFault g (s.page va store) ⟨[], s⟩ = _
  cases hp : s.page va store with
  | refused => exact absurd hp h
  | _ => rfl

theorem touch_refused (h : s.page va store = .refused) : touch g store va ⟨[], s⟩ = g ⟨[], s⟩ := by
  show handleFault g (s.page va store) ⟨[], s⟩ = _
  rw [h]
  rfl

theorem touch_tidy (hg : Tidy g) : Tidy (touch g store va) := by
  intro s
  by_cases h : s.page va store = .refused
  · rw [wp_of_eq (touch_refused h), ← wp_of_eq rfl]
    exact hg s
  · rw [wp_of_eq (touch_resolved h)]
    rfl

theorem calm_touch : Calm (touch g store va) s ↔ (s.page va store = .refused → Calm g s) := by
  by_cases h : s.page va store = .refused
  · simp only [Calm, alone, touch_refused h, h, true_implies]
  · simp only [Calm, alone, touch_resolved h, h, false_implies, iff_true]
    exact fun _ e => by cases e

/-- Accesses that all are resolved leave no trace. -/
theorem touches_run (hg : ∀ h a h', g h ≠ (.ok a, h')) (s : Sys) (a : Unit) (s' : Sys) : ∀ pages : List Nat,
    forEach pages (touch g store) ⟨[], s⟩ = (.ok a, ⟨[], s'⟩) ↔ ¬s.Refuses store pages ∧ s' = s
  | [] => by simp [Sys.Refuses, forEach, pure, eq_comm]
  | va :: pages => by
    by_cases h : s.page va store = .refused
    · have hr : s.Refuses store (va :: pages) := ⟨va, by simp, h⟩
      simp only [hr, not_true_eq_false, false_and, iff_false, forEach]
      rcases ht : touch g store va ⟨[], s⟩ with ⟨_ | _ | e, h'⟩
      · exact absurd ((touch_refused h).symm.trans ht) (hg _ _ _)
      · rw [bind_err ht]
        exact fun he => by cases he
      · have hp : (touch g store va ⟨[], s⟩).1 = .panic e := by rw [ht]
        intro h2
        have h3 := bind_panic (f := fun _ => forEach pages (touch g store)) hp
        rw [h2] at h3
        cases h3
    · have hr : s.Refuses store (va :: pages) ↔ s.Refuses store pages := by simp [Sys.Refuses, h]
      rw [forEach, bind_ok (touch_resolved h), touches_run hg s a s' pages, hr]

/-- Accesses that go on after a resolved fault and end at a refused one. -/
theorem calm_touches (ht : Tidy g) (hg : ∀ h a h', g h ≠ (.ok a, h')) : ∀ pages : List Nat,
    Calm (forEach pages (touch g store)) s ↔ (s.Refuses store pages → Calm g s)
  | [] => by simp [Sys.Refuses, forEach, Calm, alone, pure]
  | va :: pages => by
    have ih := calm_touches ht hg pages
    rw [forEach, calm_bind (touch_tidy ht), calm_touch]
    by_cases h : s.page va store = .refused
    · have none (a : Unit) (s') : touch g store va ⟨[], s⟩ ≠ (.ok a, ⟨[], s'⟩) := by
        rw [touch_refused h]
        exact hg _ a _
      have hr : s.Refuses store (va :: pages) := ⟨va, by simp, h⟩
      simp [h, none, hr]
    · have same (a : Unit) (s') : touch g store va ⟨[], s⟩ = (.ok a, ⟨[], s'⟩) ↔ s' = s := by
        rw [touch_resolved h]
        simp [eq_comm]
      have hr : s.Refuses store (va :: pages) ↔ s.Refuses store pages := by simp [Sys.Refuses, h]
      simp [h, same, ih, hr]

theorem copyUser_tidy {ptr len : Nat} (hg : Tidy g) : Tidy (copyUser g store ptr len) :=
  .forEach (fun _ => touch_tidy hg) _

end Free

/-! ## Exit -/

section Exit
variable {n : Nat} {s : Sys}
variable {α : Type} {ex : Int → Int → Run Unit}
variable {c : Run α}

theorem calm_table (hc : Wakes 10 c) : Calm (locked .processTable c) s ↔ WakesNobody c s :=
  Watched.calm_locked (hc.le rfl)

theorem table_tidy (hc : Wakes 10 c) : Tidy (locked .processTable c) :=
  Watched.tidy_locked (hc.le rfl)

theorem table_run (hc : Wakes 10 c) (hq : WakesNobody c s) (a : α) (s' : Sys) :
    locked .processTable c ⟨[], s⟩ = (.ok a, ⟨[], s'⟩) ↔ alone c s = (.ok a, s') := by
  rcases Watched.locked_self (hc.le rfl) relock s with ⟨_, h⟩ | ⟨hl, _⟩
  · rw [show locked .processTable c ⟨[], s⟩ = under [] (alone c s) from h, under]
    simp [Prod.ext_iff]
  · exact absurd hq hl

theorem kill_tidy (hx : ∀ p st, Tidy (ex p st)) : Tidy (kill n ex) :=
  .bind .read fun _ => .bind (hx _ _) fun _ => .bind (schedule_keeps n).tidy fun _ => .fail _

theorem kill_not_ok (h a h') : kill n ex h ≠ (.ok a, h') :=
  bind_not_ok (fun _ => bind_not_ok fun _ => bind_not_ok nofun) h a h'

section
variable {ex : Int → Int → Run Unit} (hx : ∀ p st, Tidy (ex p st))
include hx

theorem calm_kill : Calm (kill n ex) s ↔ Calm (ex s.current (-11)) s := by
  exact calm_bind_ordered (hx _ _) fun _ => .bind (schedule_keeps n) fun _ => .fail _

theorem clearChildTid_tidy (tid : Nat) : Tidy (clearChildTid n ex tid) :=
  .ite (.bind (.forEach (fun _ => touch_tidy (kill_tidy hx)) _) fun _ => (wakeFutex_keeps _).tidy) (.pure ())

/-- Clearing the thread id panics only through the exit of a process that may not write there. -/
theorem calm_clearChildTid (tid : Nat) : Calm (clearChildTid n ex tid) s ↔
      (clears tid → s.Refuses true (pagesOf tid 4) → Calm (ex s.current (-11)) s) := by
  have ht : Tidy (kill n ex) := kill_tidy hx
  rw [clearChildTid, onlyIf]
  by_cases hc : clears tid
  · simp only [hc, if_true, true_implies]
    rw [calm_bind_ordered (copyUser_tidy ht) fun _ => wakeFutex_keeps _, copyUser,
      calm_touches ht kill_not_ok, calm_kill hx]
  · simp only [hc, false_implies, iff_true]
    exact nofun

end

theorem exit_tidy : ∀ n pid status, Tidy (exit n pid status)
  | 0, _, _ => .pure ()
  | n + 1, pid, status => by
    refine .bind (table_tidy (markDead_wakes pid status)) fun d => ?_
    cases d with
    | none => exact .pure ()
    | some d => exact .bind (clearChildTid_tidy (exit_tidy n) _) fun _ => (exitRest_keeps d).tidy

theorem calm_exit : ∀ n pid status s, Calm (exit n pid status) s ↔ ExitSafe n pid status s
  | 0, _, _, _ => ⟨fun _ => trivial, fun _ => nofun⟩
  | n + 1, pid, status, s => by
    have hw : Wakes 10 (markDead n pid status) := markDead_wakes pid status
    rw [exit, calm_bind (table_tidy hw), calm_table hw]
    refine and_congr_right fun hq => ?_
    simp only [table_run hw hq]
    -- what follows the first phase, for a process that was there
    have rest (d : Dying) (s' : Sys) :
        Calm (clearChildTid n (exit n) d.clearTid >>= fun _ => exitRest pid status d) s' ↔
          (clears d.clearTid → s'.Refuses true (pagesOf d.clearTid 4) → Calm (exit n s'.current (-11)) s') := by
      rw [calm_bind_ordered (clearChildTid_tidy (exit_tidy n) _) fun _ => exitRest_keeps d]
      exact calm_clearChildTid (exit_tidy n) _
    refine ⟨fun h d s' ha hc hr => ?_, fun h d s' ha => ?_⟩
    · exact (calm_exit n _ _ s').mp ((rest d s').mp (h (some d) s' ha) hc hr)
    · cases d with
      | none => exact nofun
      | some d => exact (rest d s').mpr fun hc hr => (calm_exit n _ _ s').mpr (h d s' ha hc hr)

end Exit

/-! ## Exec -/

section Exec
variable {n : Nat} {s : Sys}

theorem segfault_tidy : Tidy (segfault n) := kill_tidy (exit_tidy n)

theorem calm_segfault : Calm (segfault n) s ↔ ExitSafe n s.current (-11) s :=
  (calm_kill (exit_tidy n)).trans (calm_exit ..)
variable {α β : Type}

theorem calm_require {p : Prop} [Decidable p] {e : String} {f : Unit → Run α} :
    Calm (require p e >>= f) s ↔ (p → Calm (f ()) s) := by
  by_cases h : p
  · simp only [require, h, true_implies]
    exact Iff.rfl
  · simp only [require, h, false_implies, iff_true]
    exact nofun

theorem calm_read {f : Sys → Run α} : Calm (read >>= f) s ↔ Calm (f s) s := Iff.rfl

variable {c : Run α} {f : α → Run β}

/-- The rule for a command that keeps the order. -/
theorem calm_keeps {k : Nat} (hc : Keeps k c) :
    Calm (c >>= f) s ↔ ∀ s' a, alone c s = (.ok a, s') → Calm (f a) s' := by
  rw [calm_bind hc.tidy, and_iff_right (hc s).1, forall_comm]
  simp only [same_run ((hc s).2 [] .nil)]

/-- The rule for a command under the table lock that may wake somebody. -/
theorem calm_wakes (hc : Wakes 10 c) :
    Calm (locked .processTable c >>= f) s ↔ WakesNobody c s ∧ ∀ s' a, alone c s = (.ok a, s') → Calm (f a) s' := by
  rw [calm_bind (table_tidy hc), calm_table hc, forall_comm]
  refine and_congr_right fun hq => ?_
  simp only [table_run hc hq]

theorem forall_unit {P : Unit → Prop} : (∀ a, P a) ↔ P () := ⟨fun h => h (), fun h _ => h⟩

theorem calm_exec (a : ExecArgs) : Calm (sysExec n a) s ↔ ExecSafe n a s := by
  have ht : Tidy (segfault n) := segfault_tidy
  have hno (h a h') : segfault n h ≠ (.ok a, h') := kill_not_ok h a h'
  rw [sysExec, calm_require]
  refine imp_congr_right fun _ => ?_
  rw [calm_bind (.forEach (fun _ => touch_tidy ht) _), calm_touches ht hno, calm_segfault]
  refine and_congr_right fun _ => ?_
  simp only [touches_run hno, and_imp, forall_eq_apply_imp_iff, forall_const]
  refine imp_congr_right fun _ => ?_
  rw [calm_keeps (execLoad_keeps a)]
  refine forall_congr' fun s₁ => forall_unit.trans (imp_congr_right fun _ => ?_)
  rw [calm_read, calm_wakes (execClose_wakes _)]
  refine and_congr_right fun _ => forall_congr' fun s₂ => forall_unit.trans ?_
  rw [forall_comm]
  refine imp_congr_right fun _ => ?_
  rw [calm_keeps execReset_keeps]
  refine forall_congr' fun s₃ => forall_unit.trans (imp_congr_right fun _ => ?_)
  have last (s' : Sys) : Keeps 2 (locked .processTable (getProc s'.current) >>= fun _ => (pure () : Run Unit)) :=
    .bind (.locked rfl getProc_keeps) fun _ => .pure ()
  rw [calm_bind_ordered (copyUser_tidy ht) fun _ => last s₁, copyUser, calm_touches ht hno, calm_segfault]

end Exec

/-! ## Under the table lock -/

section Table
variable {n : Nat} {s : Sys} {α : Type} {c : Run α} {m : Lock} {held : List Lock} {Q : α → Hart Lock Sys → Prop}
  {E X : Hart Lock Sys → Prop} {store : Bool}

theorem wp_held (hm : m ∈ held) : (locked m c).wp Q E X ⟨held, s⟩ ↔ X ⟨held, s⟩ := wp_locked_held hm

theorem wp_free (hm : m ∉ held) : (locked m c).wp Q E X ⟨held, s⟩ ↔
    c.wp (fun a h' => Q a ⟨h'.held.erase m, h'.val⟩) (fun h' => E ⟨h'.held.erase m, h'.val⟩) X ⟨m :: held, s⟩ :=
  wp_locked_free hm

/-- A call that works under the table lock and then goes on in order is decided under that lock. -/
theorem calm_of_table {f : α → Run Unit} {C : Prop} (hf : ∀ a, Keeps 2 (f a))
    (hw : c.wp (fun _ h => h.held = [.processTable] ∧ C) (fun _ => C) (fun _ => ¬C) ⟨[.processTable], s⟩) :
    Calm (locked .processTable c >>= f) s ↔ C := by
  refine calm_iff_of_wp ?_
  rw [wp_bind, wp_free (by simp)]
  refine wp_imp hw (fun a h hC => ?_)
  obtain ⟨held, s'⟩ := h
  obtain ⟨rfl, hC⟩ := hC
  exact (hf a).wp .nil (fun _ _ => hC) fun _ => hC

theorem frameOps_run (hb : Below Lock.rank 67 held) : ∀ ops, frameOps ops ⟨held, s⟩ = (.ok (), ⟨held, s⟩) := by
  have one (op) : frameOp op ⟨held, s⟩ = (.ok (), ⟨held, s⟩) := by
    have h := (frameOp_keeps op s).2 held hb
    cases op <;> exact h
  intro ops
  induction ops with
  | nil => rfl
  | cons op ops ih => exact (bind_ok (one op)).trans ih

/-- A page that needs the process table is one page too many. -/
theorem touch_table (hm : .processTable ∈ held) (hb : Below Lock.rank 66 held) (va : Nat) :
    (s.page va store).settled = true ∧ touch (segfault (n + 1)) store va ⟨held, s⟩ = (.ok (), ⟨held, s⟩) ∨
    (s.page va store).settled = false ∧ ∃ e, (touch (segfault (n + 1)) store va ⟨held, s⟩).1 = .panic e := by
  have hsw : locked .swapMap (pure () : Run Unit) ⟨held, s⟩ = (.ok (), ⟨held, s⟩) :=
    locked_run relock (hb.not_mem (Nat.le_refl 66)) rfl nofun
  have ops := frameOps_run (s := s) (hb.mono (show 66 ≤ 67 by decide))
  show _ ∧ handleFault (segfault (n + 1)) (s.page va store) ⟨held, s⟩ = _ ∨
    _ ∧ ∃ e, (handleFault (segfault (n + 1)) (s.page va store) ⟨held, s⟩).1 = _
  cases s.page va store with
  | ready => exact .inl ⟨rfl, rfl⟩
  | cow => exact .inl ⟨rfl, ops _⟩
  | swapped => exact .inl ⟨rfl, (bind_ok hsw).trans ((bind_ok hsw).trans (ops _))⟩
  | demand =>
    refine .inr ⟨rfl, relock, ?_⟩
    rw [handleFault, bind_ok hsw]
    refine bind_panic ?_
    show (locked .processTable (getProc s.current) ⟨held, s⟩).1 = _
    rw [locked, locked_held hm]
  | refused =>
    refine .inr ⟨rfl, relock, ?_⟩
    show ((exit (n + 1) s.current (-11) >>= fun _ => schedule (n + 1) >>= fun _ => Cmd.fail _) _).1 = _
    refine bind_panic (bind_panic ?_)
    rw [locked, locked_held hm]

/-- A copy under the table lock. -/
theorem copyUser_wp {ptr len : Nat} {Q : Unit → Hart Lock Sys → Prop} {P : Prop} (hm : .processTable ∈ held)
    (hb : Below Lock.rank 66 held) (hQ : s.Settled store ptr len → Q () ⟨held, s⟩)
    (hP : ¬s.Settled store ptr len → P) :
    (copyUser (segfault (n + 1)) store ptr len).wp Q E (fun _ => P) ⟨held, s⟩ := by
  rw [copyUser]
  rw [Sys.Settled] at hQ hP
  generalize pagesOf ptr len = pages at hQ hP
  induction pages with
  | nil => exact (wp_pure _).mpr (hQ (by simp))
  | cons va pages ih =>
    rw [forEach, wp_bind]
    rcases touch_table hm hb va with ⟨hs, h⟩ | ⟨hs, e, h⟩
    · rw [wp_of_eq h]
      exact ih (fun h => hQ (by simpa [hs] using h)) (fun h => hP (by simpa [hs] using h))
    · rcases hr : touch (segfault (n + 1)) store va ⟨held, s⟩ with ⟨_ | _ | _, _⟩ <;> rw [hr] at h <;> cases h
      rw [wp_of_eq hr]
      exact hP (by simp [hs])

end Table

/-! ## Fork -/

section Fork
variable {s : Sys}

theorem calm_fork (env : ForkEnv) : Calm (sysFork env) s ↔ ForkSafe env s := by
  rw [sysFork, calm_read, calm_keeps (processNew_keeps env _), forall_comm]
  refine forall_congr' fun child => forall_congr' fun s' => imp_congr_right fun _ => ?_
  refine calm_of_table (fun _ => enqueueWithPrio_keeps rfl) ?_
  simp only [forkCopy, getProc, read, wp_bind, wp_read, wp_pure, forSome]
  cases hp : s'.proc s.current with
  | none => simp
  | some p =>
    have hb : Below Lock.rank 67 [.proc s.current .trapFrame, .processTable] := by
      simp [Below, Lock.rank, ProcField.rank]
    rw [Option.elim_some, wp_free (by simp), wp_bind, wp_of_eq (frameOps_run hb _)]
    show Cmd.wp _ _ _ _ _
    cases hc : env.cloneOk with
    | true =>
      simp only [onlyIf, require, reduceIte, Bool.true_eq_false, wp_bind, wp_pure]
      rw [wp_free (by simp)]
      simp [write]
    | false =>
      simp only [onlyIf, reduceIte, wp_bind, cleanupProcess]
      rw [wp_held (by simp)]
      simp

end Fork

/-! ## Messages -/

section Messages
variable {n : Nat} {s : Sys} {dest src : Int} {ptr : Nat}

theorem calm_send : Calm (sysIpcSend (n + 1) dest ptr) s ↔ SendSafe dest ptr s := by
  refine calm_of_table (fun _ => .onlyIf (schedule_keeps _)) ?_
  simp only [ipcSend, unwrapProc, getProc, read, wp_bind, wp_read, wp_pure]
  cases hp : s.proc s.current with
  | none => simp [SendSafe, hp]
  | some p =>
    rw [Option.elim_some, wp_pure, wp_free (by simp)]
    simp only [wp_bind, wp_read, wp_pure, onlyIf, wp_ite, setIpc, setA0, write, List.erase_cons_head]
    by_cases hd : ipcOf s.current s = .sendComplete
    · simp [hd, SendSafe]
    by_cases hv : isUserPointerValid messageSize ptr 1 = true
    case neg => simp [hv, SendSafe]
    simp only [hd, hv, decide_false, Bool.false_eq_true, false_implies, true_implies, not_false_eq_true, true_and,
      not_true_eq_false, and_true]
    refine copyUser_wp (by simp) (by simp [Below, Lock.rank]) (fun hs => ?_) (fun hs => ?_)
    case refine_2 => simp [SendSafe, hp, hd, hv, hs]
    cases ht : s.proc dest with
    | none =>
      have hne : dest ≠ s.current := by rintro rfl; simp [hp] at ht
      simp [SendSafe, hs, hne]
    | some t =>
      rw [Option.elim_some, wp_free (by simp)]
      simp only [wp_bind, wp_read, wp_ite]
      refine ⟨fun hr => ?_, fun hr => ?_⟩
      · rw [wp_write, enqueueWithPrio, wp_free (by simp)]
        have hC : SendSafe dest ptr s := fun _ _ _ => ⟨hs, fun e => by rw [← e] at hr; exact hr⟩
        simp [write, hC]
      · simp only [sendBlocked, setField, wp_bind]
        by_cases hne : dest = s.current
        · -- the sender's own state is the one that is locked
          subst hne
          rw [wp_held (by simp)]
          simp [SendSafe, hp, hd, hv, hr]
        · have hC : SendSafe dest ptr s := fun _ _ _ => ⟨hs, fun e => absurd e hne⟩
          rw [wp_free (by simp [Ne.symm hne]), write, wp_write, wp_free (by simp)]
          simp [write, hC]

variable {pid q : Int} {f : Proc → Proc}

theorem proc_setProc : (s.setProc pid f).proc q = if q = pid then (s.proc q).map f else s.proc q := by
  unfold Sys.setProc Sys.proc
  induction s.procs with
  | nil => simp
  | cons x xs ih =>
    obtain ⟨r, p⟩ := x
    have key : (if r = pid then (r, f p) else (r, p)) = (r, if r = pid then f p else p) := by split <;> rfl
    rw [List.map_cons, key, List.lookup, List.lookup]
    cases hq : q == r with
    | false => exact ih
    | true =>
      obtain rfl : q = r := eq_of_beq hq
      by_cases hr : q = pid <;> simp [hr]

theorem ipcOf_setProc (hf : ∀ p, (f p).ipc = p.ipc) : ipcOf q (s.setProc pid f) = ipcOf q s := by
  rw [ipcOf, proc_setProc, ipcOf]
  by_cases h : q = pid
  · cases s.proc q <;> simp [h, hf]
  · simp [h]

/-- A message is copied out under the table lock; what follows takes no notice of the state. -/
theorem copyOut_wp {me source : Int} {held : List Lock} {Q : Unit → Hart Lock Sys → Prop} {E : Hart Lock Sys → Prop}
    {P : Prop} (hm : .processTable ∈ held) (hb : Below Lock.rank 66 held)
    (hE : isUserPointerValid messageSize ptr 1 = false → ∀ s', E ⟨held, s'⟩)
    (hQ : isUserPointerValid messageSize ptr 1 = true → s.Settled true ptr messageSize → ∀ s', Q () ⟨held, s'⟩)
    (hP : isUserPointerValid messageSize ptr 1 = true → ¬s.Settled true ptr messageSize → P) :
    (copyOut (n + 1) me ptr source).wp Q E (fun _ => P) ⟨held, s⟩ := by
  simp only [copyOut, onlyIf, require, setA0, write, wp_bind, wp_ite, wp_write, wp_pure, wp_fail]
  cases hv : isUserPointerValid messageSize ptr 1 with
  | false => simpa using hE hv _
  | true =>
    simp only [Bool.true_eq_false, false_implies, true_implies, true_and, not_true_eq_false, not_false_eq_true, and_true]
    exact copyUser_wp hm hb (fun hs => hQ hv hs _) (hP hv)

section Receive
variable {me : Int} {Q : Bool → Hart Lock Sys → Prop} {E : Hart Lock Sys → Prop} {P : Prop}
variable {X : Hart Lock Sys → Prop}

theorem receiveDeposited_none (h : (ipcOf me s).isAvailable = false) (hQ : Q false ⟨[.processTable], s⟩) :
    (receiveDeposited n me ptr).wp Q E X ⟨[.processTable], s⟩ := by
  rw [receiveDeposited, wp_free (by simp)]
  simp only [read, wp_bind, wp_read]
  cases hi : ipcOf me s with
  | messageAvailable q => simp [hi, IpcState.isAvailable] at h
  | _ => simpa using hQ

theorem receiveIrq_none (h : (((s.proc me).elim [] Proc.irqPending).find? fun q => src == -1 || src == q) = none)
    (hQ : Q false ⟨[.processTable], s⟩) : (receiveIrq n me src ptr).wp Q E X ⟨[.processTable], s⟩ := by
  rw [receiveIrq, wp_free (by simp)]
  simp only [read, wp_bind, wp_read, h, Option.elim_none, wp_pure, List.erase_cons_head]
  exact hQ

-- a message is at hand, so that the copy decides
section
variable (hE : isUserPointerValid messageSize ptr 1 = false → ∀ s', E ⟨[.processTable], s'⟩)
  (hQ : isUserPointerValid messageSize ptr 1 = true → s.Settled true ptr messageSize → ∀ s', Q true ⟨[.processTable], s'⟩)
  (hP : isUserPointerValid messageSize ptr 1 = true → ¬s.Settled true ptr messageSize → P)
include hE hQ hP

theorem receiveDeposited_some (h : (ipcOf me s).isAvailable = true) :
    (receiveDeposited (n + 1) me ptr).wp Q E (fun _ => P) ⟨[.processTable], s⟩ := by
  rw [receiveDeposited, wp_free (by simp)]
  simp only [read, wp_bind, wp_read]
  cases hi : ipcOf me s with
  | messageAvailable q =>
    simp only [wp_bind]
    refine copyOut_wp (by simp) (by simp [Below, Lock.rank, ProcField.rank]) (fun hv s' => ?_)
      (fun hv hs s' => ?_) hP
    · simpa using hE hv s'
    · rw [wp_free (by simp)]
      simpa [setIpc, write] using hQ hv hs _
  | _ => simp [hi, IpcState.isAvailable] at h

theorem receiveIrq_some {source : Int}
    (h : (((s.proc me).elim [] Proc.irqPending).find? fun q => src == -1 || src == q) = some source) :
    (receiveIrq (n + 1) me src ptr).wp Q E (fun _ => P) ⟨[.processTable], s⟩ := by
  rw [receiveIrq, wp_free (by simp)]
  simp only [read, write, wp_bind, wp_read, h, Option.elim_some, wp_write]
  refine copyOut_wp (by simp) (by simp [Below, Lock.rank, ProcField.rank]) (fun hv s' => ?_)
    (fun hv hs s' => ?_) hP
  · simpa using hE hv s'
  · simpa using hQ hv hs s'

end

/-- The last resort of a receive decides `C` if the copy from a sender does. -/
theorem receiveQueued_wp {C : Prop}
    (hc : ∀ q, (((s.proc me).elim [] Proc.senders).find? fun q => src == -1 || src == q) = some q →
      (ipcOf q s).isSending = true → isUserPointerValid messageSize ptr 1 = true →
        (s.Settled true ptr messageSize ↔ C))
    (hn : ¬(∃ q, (((s.proc me).elim [] Proc.senders).find? fun q => src == -1 || src == q) = some q ∧
      (ipcOf q s).isSending = true ∧ isUserPointerValid messageSize ptr 1 = true) → C) :
    (receiveQueued (n + 1) me src ptr).wp (fun _ h => h.held = [.processTable] ∧ C) (fun _ => C) (fun _ => ¬C)
      ⟨[.processTable], s⟩ := by
  rw [receiveQueued, wp_free (by simp)]
  simp only [read, wp_bind, wp_read]
  cases hf : ((s.proc me).elim [] Proc.senders).find? fun q => src == -1 || src == q with
  | none =>
    have hC : C := hn (by simp [hf])
    rw [wp_bind, setField, wp_free (by simp)]
    simp [write, hC]
  | some q =>
    simp only [write, unwrapProc, getProc, read, wp_bind, wp_write, wp_read, wp_pure]
    generalize hs₁ : Sys.setProc me _ s = s₁
    have hset : s₁.Settled true ptr messageSize ↔ s.Settled true ptr messageSize := by rw [← hs₁]; exact Iff.rfl
    have hipc : ipcOf q s₁ = ipcOf q s := by rw [← hs₁]; exact ipcOf_setProc fun _ => rfl
    cases hq : s₁.proc q with
    | none =>
      have hC : C := hn (by
        rintro ⟨q', hq', hsend, -⟩
        obtain rfl : q = q' := by rw [hf] at hq'; exact Option.some.inj hq'
        rw [← hipc, ipcOf, hq] at hsend
        cases hsend)
      simpa using hC
    | some r =>
      rw [Option.elim_some, wp_pure, wp_free (by simp)]
      simp only [wp_bind, wp_read, hipc]
      cases hi : ipcOf q s with
      | sending target source reply =>
        have hsend : (ipcOf q s).isSending = true := by rw [hi]; rfl
        simp only [wp_bind]
        refine copyOut_wp (by simp) (by simp [Below, Lock.rank, ProcField.rank]) (fun hv s' => ?_)
          (fun hv hs s' => ?_) fun hv hs => ?_
        · exact hn (by rintro ⟨_, _, _, h⟩; rw [hv] at h; cases h)
        · have hC : C := (hc q hf hsend hv).mp (hset.mp hs)
          cases reply with
          | some r => simp [setIpc, write, hC]
          | none =>
            simp only [Option.elim_none, setIpc, write, wp_bind, wp_write, enqueueWithPrio]
            rw [wp_free (by simp)]
            simp [hC]
        · rwa [← hc q hf hsend hv, ← hset]
      | _ =>
        have hC : C := hn (by
          rintro ⟨q', hq', hsend, -⟩
          obtain rfl : q = q' := by rw [hf] at hq'; exact Option.some.inj hq'
          rw [hi] at hsend
          cases hsend)
        simp [setA0, write, hC]

end Receive

theorem calm_receive : Calm (sysIpcReceive (n + 1) src ptr) s ↔ ReceiveSafe src ptr s := by
  refine calm_of_table (fun _ => .onlyIf (schedule_keeps _)) ?_
  simp only [ipcReceive, unwrapProc, getProc, read, wp_bind, wp_read, wp_pure]
  cases hp : s.proc s.current with
  | none => simp [ReceiveSafe, hp]
  | some p =>
    rw [Option.elim_some, wp_pure]
    -- a copy decides the call, wherever the message comes from
    have bad (hd : s.deliverable src = true) (hv : isUserPointerValid messageSize ptr 1 = true)
        (hs : ¬s.Settled true ptr messageSize) : ¬ReceiveSafe src ptr s := fun h => hs (h (by simp [hp]) hd hv)
    have invalid (hv : isUserPointerValid messageSize ptr 1 = false) : ReceiveSafe src ptr s :=
      fun _ _ h => by rw [hv] at h; cases h
    have good (hs : s.Settled true ptr messageSize) : ReceiveSafe src ptr s := fun _ _ _ => hs
    cases ha : (ipcOf s.current s).isAvailable with
    | true =>
      have hd : s.deliverable src = true := by simp [Sys.deliverable, ha]
      exact receiveDeposited_some (fun hv _ => invalid hv) (fun _ hs _ => by simp [good hs]) (bad hd) ha
    | false =>
      refine receiveDeposited_none ha ?_
      simp only [Bool.false_eq_true, if_false, wp_bind]
      cases hi : ((s.proc s.current).elim [] Proc.irqPending).find? fun q => src == -1 || src == q with
      | some source =>
        have hd : s.deliverable src = true := by simp [Sys.deliverable, hi]
        exact receiveIrq_some (fun hv _ => invalid hv) (fun _ hs _ => by simp [good hs]) (bad hd) hi
      | none =>
        refine receiveIrq_none hi ?_
        refine receiveQueued_wp (fun q hq hs hv => ?_) fun hn => ?_
        · have hd : s.deliverable src = true := by simp [Sys.deliverable, hq, hs]
          exact ⟨good, fun h => by_contra fun hns => bad hd hv hns h⟩
        · intro _ hd hv
          refine absurd ?_ hn
          simp only [Sys.deliverable, ha, hi, Bool.false_or, Option.isSome_none, Option.any_eq_true] at hd
          obtain ⟨q, hq, hs⟩ := hd
          exact ⟨q, hq, hs, hv⟩

theorem calm_sendrec : Calm (sysIpcSendrec (n + 1) dest ptr) s ↔ SendrecSafe dest ptr s := by
  refine calm_of_table (fun _ => .onlyIf (schedule_keeps _)) ?_
  simp only [ipcSendrec, unwrapProc, getProc, read, wp_bind, wp_read, wp_pure]
  cases hp : s.proc s.current with
  | none => simp [SendrecSafe, hp]
  | some p =>
    rw [Option.elim_some, wp_pure, wp_free (by simp)]
    simp only [wp_bind, wp_read]
    have hb : Below Lock.rank 66 [.proc s.current .ipcState, .processTable] := by
      simp [Below, Lock.rank, ProcField.rank]
    cases hi : ipcOf s.current s with
    | messageAvailable q =>
      have hC : SendrecSafe dest ptr s ↔ s.Settled true ptr messageSize := by simp [SendrecSafe, hp, hi]
      simp only [wp_bind]
      refine copyUser_wp (by simp) hb (fun hs => ?_) fun hs => by rwa [hC]
      simp [setIpc, setA0, write, hC, hs]
    | none =>
      have hC : SendrecSafe dest ptr s ↔ s.Settled false ptr messageSize ∧ dest ≠ s.current := by
        simp [SendrecSafe, hp, hi]
      simp only [sendrecSend, getProc, read, wp_bind, wp_read, wp_pure]
      refine copyUser_wp (by simp) hb (fun hs => ?_) fun hs h => hs (hC.mp h).1
      cases ht : s.proc dest with
      | none =>
        have hne : dest ≠ s.current := by rintro rfl; simp [hp] at ht
        simp [setA0, write, hC, hs, hne]
      | some t =>
        rw [Option.elim_some]
        by_cases hne : dest = s.current
        · -- the target's state is the sender's own, which is locked
          subst hne
          rw [wp_held (by simp)]
          simp [hC]
        · have hyes : SendrecSafe dest ptr s := hC.mpr ⟨hs, hne⟩
          rw [wp_free (by simp [hne])]
          simp only [setIpc, write, wp_bind, wp_read, wp_ite, wp_write, enqueueWithPrio, setField, wp_pure]
          refine ⟨fun _ => ?_, fun _ => ?_⟩
          · rw [wp_free (by simp)]
            simp [hyes]
          · rw [wp_free (by simp)]
            simp [hyes]
    | receivingReply q r => simp [SendrecSafe, hi]
    | _ => simp [SendrecSafe, hi, setIpc, setA0, write]

end Messages

/-! ## Sockets -/

theorem calm_of_run {s s' : Sys} {α β : Type} {c : Run α} {f : α → Run β} {a : α}
    (h : c ⟨[], s⟩ = (.ok a, ⟨[], s'⟩)) : Calm (c >>= f) s ↔ Calm (f a) s' := by
  simp only [Calm, alone, bind_ok h]

theorem calm_push {s : Sys} (sid fd : Nat) : Calm (pushPendingAccepted sid fd) s ↔ PushSafe sid fd s := by
  have hpush : locked .pendingAccepted (write (Sys.pushAccepted sid fd)) ⟨[], s⟩ =
      (.ok (), ⟨[], s.pushAccepted sid fd⟩) := rfl
  have howner : locked .socketOwner (do let s ← read; pure (s.socketOwner.lookup sid)) ⟨[], s.pushAccepted sid fd⟩ =
      (.ok (s.socketOwner.lookup sid), ⟨[], s.pushAccepted sid fd⟩) := rfl
  rw [pushPendingAccepted, calm_of_run hpush, calm_of_run howner, PushSafe]
  cases s.socketOwner.lookup sid with
  | none => exact ⟨fun _ => nofun, fun _ => nofun⟩
  | some x =>
    simp only [Option.some.injEq, forall_eq']
    exact calm_table (wakeOwner_wakes ..)

/-! ## All calls -/

/-- A call panics on a lock that its hart holds if and only if it is not safe. -/
theorem no_lock_taken_twice_iff (n : Nat) (call : Call) (s : Sys) :
    (∀ e, (call.run (n + 1) ⟨[], s⟩).1 ≠ .panic e) ↔ call.Safe n s := by
  cases call with
  | exit pid status => exact calm_exit ..
  | exec a => exact calm_exec a
  | fork env => exact calm_fork env
  | send dest ptr => exact calm_send
  | receive src ptr => exact calm_receive
  | sendrec dest ptr => exact calm_sendrec
  | pushPendingAccepted sid fd => exact calm_push sid fd

/-- Process 2 holds the last write end of a pipe that process 3 reads; its first pages are untouched. -/
def crowded : Sys :=
  let idle : Proc := ⟨.running, [], [], [], 0, 0, .none, [], none, [], 1, 2, 2, 16, 0, 0⟩
  { procs := [(2, { idle with fds := [⟨0, .pipeWrite 0, false⟩] }), (3, { idle with state := .stopped })]
    current := 2, nextPid := 4, runQueue := []
    pipes := fun _ => ⟨1, 3, []⟩, epolls := fun _ => ⟨0, 0⟩
    endpoints := fun _ => ⟨0, 0, false, [], 0, [], [], []⟩
    ports := fun _ => ⟨[], 0⟩, vmos := fun _ => ⟨0, 0⟩
    futexes := [], irqHandlers := [], fileLocks := [], lockWaiters := [], pendingAccepted := [], socketOwner := []
    page := fun va _ => if va = 0x100000000 then .ready else .demand }

/-- An exit that closes a pipe under a reader, a process that sends to itself, a message in a page
    not yet touched, and a fork that runs out of memory. -/
theorem locks_taken_twice : ((Call.exit 2 0).run 3 ⟨[], crowded⟩).1 = .panic relock ∧
    ((Call.send 2 0x100000000).run 3 ⟨[], crowded⟩).1 = .panic relock ∧
    ((Call.send 3 0x100001000).run 3 ⟨[], crowded⟩).1 = .panic relock ∧
    ((Call.fork ⟨[], true, true, [], [], false, []⟩).run 3 ⟨[], crowded⟩).1 = .panic relock := by
  decide +kernel

end OpenV.Sync
