import OpenV.Sched.Irq
import OpenV.Sched.Phases
import OpenV.Sched.Sleep
import OpenV.Sched.Wait

/- Whether a zombie stays one. The wakers that hold a list of pids (timer, futexes,
   record locks) set the state without looking at it, and so do the calls that stop
   their caller and `sys_set_process_state`; the others look. For each step the
   status of every process after it is a formula of the state before it, from which
   the condition under which zombies stay is read off exactly. -/
namespace OpenV.Sched

open Os

inductive LifeOp where
  | tick (now : Nat)
  | dispatch (h : Nat)
  | preempt (h pc : Nat)
  /-- a hart leaves the process that it runs -/
  | idle (h : Nat)
  /-- a stop signal is acted on -/
  | stop (h : Nat)
  | nanosleep (h pc ptr now : Nat) (sec nsec : Int)
  | futex (h pc addr op val word : Nat)
  | setLock (h pc : Nat) (wait : Bool) (file : Nat) (type start len : Int)
  | mailboxSend (h pc : Nat) (dest : Pid) (ptr len : Nat) (data : List (BitVec 8))
  | mailboxReceive (h pc ptr maxLen : Nat)
  | setState (h pc : Nat) (cap : Bool) (target : Pid) (state : Nat)
  | waitpid (h pc : Nat) (target : Int) (statusPtr options : Nat)
  /-- a signal other than SIGKILL -/
  | signal (sig : Nat) (pid : Pid)
  /-- a process exits or is killed -/
  | exit (dropped : List Pid) (pid : Pid) (status : Int)

namespace LifeOp

/-- The hart, the address and the registers of a call. -/
def call : LifeOp → Option (Nat × Nat × Call)
  | nanosleep h pc _ _ _ _ => some (h, pc, .nanosleep)
  | futex h pc addr op _ _ => some (h, pc, if op = Os.futexWait then .futexWait addr else .other)
  | setLock h pc _ _ _ _ _ => some (h, pc, .lockWait)
  | mailboxSend h pc _ _ _ _ => some (h, pc, .other)
  | mailboxReceive h pc _ _ => some (h, pc, .mailboxReceive)
  | setState h pc _ _ _ => some (h, pc, .other)
  | waitpid h pc target statusPtr options => some (h, pc, .waitpid target statusPtr options)
  | _ => none

/-- The step, for a call after the caller has entered the kernel. -/
def body : LifeOp → Os → Os
  | tick now => Os.wakeSleepers now
  | dispatch h => Os.dispatch h
  | preempt h pc => Os.preempt h pc
  | idle h => Os.leave h
  | stop h => fun s => s.stopCaller h (s.current h)
  | nanosleep h _ ptr now sec nsec => Os.sysNanosleep h ptr now sec nsec
  | futex h _ addr op val word => Os.sysFutex h addr op val word
  | setLock h _ wait file type start len => Os.setLock h wait file type start len
  | mailboxSend h _ dest ptr len data => Os.sysMailboxSend h dest ptr len data
  | mailboxReceive h _ ptr maxLen => Os.sysMailboxReceive h ptr maxLen
  | setState h _ cap target state => Os.sysSetProcessState h cap target state
  | waitpid h _ target statusPtr options => fun s => (s.sysWaitpid h target statusPtr options).1
  | signal sig pid => Os.post sig pid
  | exit dropped pid status => Os.exit dropped pid status

def step (op : LifeOp) (s : Os) : Os :=
  match op.call with
  | none => op.body s
  | some (h, pc, call) => s.syscall h pc call op.body

def run (op : LifeOp) : Cmd Os Unit := fun s => (.ok (), op.step s)

/-- Zombies stay zombies with their status, unless the step reaps them, and who exits ends as one. -/
def Absorbs (op : LifeOp) (s s' : Os) : Prop :=
  match op with
  | waitpid .. => ∀ q st, s.status q = some st → s'.status q = some st ∨ s'.proc q = none
  | exit _ pid status => (∀ q st, s.status q = some st → s'.status q = some st) ∧
      ((s.proc pid).isSome = true → s'.status pid = some status)
  | _ => ∀ q st, s.status q = some st → s'.status q = some st

/-- Who the step makes running or stopped without looking at its state. -/
def touched (op : LifeOp) (s : Os) : List Pid :=
  match op with
  | tick now => s.expired now
  | stop h => [s.current h]
  | nanosleep h _ ptr _ _ _ => if ptr = 0 ∨ isUserPointerValid 16 ptr 1 = false then [] else [s.current h]
  | futex h _ addr op val word =>
    if isUserPointerValid 4 addr 1 = false then []
    else if op = Os.futexWait then if word ≠ val % 2 ^ 32 then [] else [s.current h]
    else if op = Os.futexWake then s.drained addr val
    else []
  | setLock h _ wait file type start len =>
    let range := Os.resolveRange start len
    let req : FileLock := ⟨s.current h, type, range.1, range.2⟩
    if type = Os.unlock then
      (grants ((s.fileLocks file).filter fun e =>
        e.pid != s.current h || !(FileLock.overlaps ⟨s.current h, 0, range.1, range.2⟩ e)) (s.lockWaiters file)).2.1.map
          FileLock.pid
    else if (s.fileLocks file).any req.conflicts = true ∧ wait = true then [s.current h]
    else []
  | mailboxReceive h _ _ _ => if (s.proc (s.current h)).map Proc.mailbox = some [] then [s.current h] else []
  | setState _ _ cap target state => if cap = true ∧ state ≠ 1 then [target] else []
  | waitpid h _ target statusPtr options => if s.waitpidSleeps h target statusPtr options then [s.current h] else []
  | _ => []

end LifeOp

namespace Os

/-- Who is granted a lock when the waiters of the files are looked at one after the other. -/
def lockGrants : List Nat → Os → List Pid
  | [], _ => []
  | file :: files, s =>
    (grants (s.fileLocks file) (s.lockWaiters file)).2.1.map FileLock.pid ++ lockGrants files (s.wakeLockWaiters file)

/-- Who is granted a lock when `pid` gives up all of its own. -/
def releasedBy (pid : Pid) (s : Os) : List Pid :=
  lockGrants s.waitedFiles { s with fileLocks := fun file => (s.fileLocks file).filter fun e => e.pid != pid }

/-- Who the exit of `pid` makes running without looking at its state. -/
def exitTouched (pid : Pid) (p : Proc) (s : Os) : List Pid :=
  (if clears p.clearTid then s.futexes p.clearTid else []) ++ s.releasedBy pid

/-- A condition on the state in which a caller has entered the kernel. -/
def AtCall (h pc : Nat) (call : Call) (C : Os → Prop) (s : Os) : Prop :=
  (s.caller h pc call).elim True fun me => C (s.setProc me (Proc.enter pc call))

end Os

/-- What the step needs: whoever it makes running or stopped without looking is no zombie, and who exits is no zombie
with another status. -/
def LifeOp.Safe (op : LifeOp) (s : Os) : Prop :=
  match op with
  | .exit _ pid status => ∀ p, s.proc pid = some p → (∀ st, s.status pid = some st → st = status) ∧
      ∀ q ∈ s.exitTouched pid p, s.status q = none ∧ q ≠ pid
  | op =>
    match op.call with
    | none => ∀ q ∈ op.touched s, s.status q = none
    | some (h, pc, call) => s.AtCall h pc call fun s => ∀ q ∈ op.touched s, s.status q = none

/-! ## The status of every process -/

namespace Os
section Status
variable {s : Os} {q k : Pid} {f : Proc → Proc}

theorem status_of {p : Proc} (hp : s.proc q = some p) : s.status q = ProcState.status p.state := by
  rw [status, hp]
  rfl

theorem status_setProc : (s.setProc k f).status q =
    if q = k then (s.proc k).bind fun p => ProcState.status (f p).state else s.status q := by
  unfold status
  rw [proc_setProc]
  split
  · rename_i e
    rw [e]
    cases s.proc k <;> rfl
  · rfl

/-- A change that leaves the state alone. -/
theorem status_setProc_same (h : ∀ p, s.proc k = some p → ProcState.status (f p).state = ProcState.status p.state) :
    (s.setProc k f).status = s.status := by
  funext q
  rw [status_setProc]
  split
  · rename_i e
    rw [e]
    unfold status
    cases hp : s.proc k with
    | none => rfl
    | some p => exact h p hp
  · rfl

/-- A change to a state that is no zombie's. -/
theorem status_setProc_none (h : ∀ p, ProcState.status (f p).state = none) :
    (s.setProc k f).status q = if q = k then none else s.status q := by
  rw [status_setProc]
  split
  · cases s.proc k with
    | none => rfl
    | some p => exact h p
  · rfl

theorem status_setA0 {v : Nat} : (s.setA0 k v).status = s.status := status_setProc_same fun _ _ => rfl

theorem status_setIpc {st : IpcState} : (s.setIpc k st).status = s.status := status_setProc_same fun _ _ => rfl

theorem status_stopCaller {h : Nat} : (s.stopCaller h k).status q = if q = k then none else s.status q :=
  status_setProc_none fun _ => rfl

theorem status_resume : (s.resume k).status q = if q = k then none else s.status q := by
  unfold resume
  split
  · rename_i hp
    split
    · rename_i e
      rw [e, status, hp]
      rfl
    · rfl
  · exact status_setProc_none fun _ => rfl

theorem status_foldl {step : Os → Pid → Os} (h : ∀ s k, (step s k).status q = if q = k then none else s.status q)
    (l : List Pid) (s : Os) : (l.foldl step s).status q = if q ∈ l then none else s.status q := by
  induction l generalizing s with
  | nil => rfl
  | cons k l ih =>
    rw [List.foldl_cons, ih, h]
    by_cases h1 : q ∈ l <;> by_cases h2 : q = k <;> simp [h2]

theorem status_resumeAll (l : List Pid) (s : Os) : (s.resumeAll l).status q = if q ∈ l then none else s.status q :=
  status_foldl (fun _ _ => status_resume) l s

theorem status_granted : (s.granted k).status q = if q = k then none else s.status q := by
  unfold granted
  have h : (s.setProc k fun p => { p with a0 := 0, ipc := .none }).status = s.status :=
    status_setProc_same fun _ _ => rfl
  rw [status_resume, h]

theorem status_wakeLockWaiters {file : Nat} : (s.wakeLockWaiters file).status q =
    if q ∈ (grants (s.fileLocks file) (s.lockWaiters file)).2.1.map FileLock.pid then none else s.status q := by
  exact status_foldl (fun _ _ => status_granted) _ _

theorem status_lockGrants (files : List Nat) (s : Os) :
    (files.foldl (fun s file => s.wakeLockWaiters file) s).status q =
      if q ∈ lockGrants files s then none else s.status q := by
  induction files generalizing s with
  | nil => rfl
  | cons file files ih =>
    rw [List.foldl_cons, ih, status_wakeLockWaiters, lockGrants]
    simp only [List.mem_append]
    by_cases h1 : q ∈ lockGrants files (s.wakeLockWaiters file) <;>
      by_cases h2 : q ∈ (grants (s.fileLocks file) (s.lockWaiters file)).2.1.map FileLock.pid <;> simp only [h1, h2] <;> rfl

theorem status_releaseAllLocks {pid : Pid} : (s.releaseAllLocks pid).status q =
    if q ∈ s.releasedBy pid then none else s.status q :=
  status_lockGrants _ _

theorem status_milds {s' : Os} (h : Milds s s') : s'.status = s.status := by
  refine Milds.lift (R := fun s s' => s'.status = s.status) (fun _ => rfl) (fun a b => b.trans a) (fun hf => ?_)
    (fun {s q p} hp hs => ?_) h
  · refine status_setProc_same fun p _ => ?_
    have := hf p
    rw [this]
  · refine status_setProc_same fun p' hp' => ?_
    rw [hp] at hp'
    cases hp'
    rw [hs]
    rfl

theorem status_unblock : (s.unblock k).status = s.status := by
  unfold unblock
  rw [status_milds (wakeStopped_milds k _)]
  exact status_setProc_same fun _ _ => rfl

end Status

/-! ## The tables of record locks -/

/-- The locks held and waited for. -/
def lockTables (s : Os) : (Nat → List FileLock) × (Nat → List FileLock) × List Nat :=
  (s.fileLocks, s.lockWaiters, s.waitedFiles)

theorem outside_lockTables : Outside lockTables := ⟨fun _ _ _ => rfl, fun _ _ _ => rfl⟩

theorem lockTables_wakeLockWaiters (s : Os) (file : Nat) : (s.wakeLockWaiters file).lockTables =
    (Function.update s.fileLocks file (grants (s.fileLocks file) (s.lockWaiters file)).1,
      Function.update s.lockWaiters file (grants (s.fileLocks file) (s.lockWaiters file)).2.2, s.waitedFiles) := by
  exact foldl_keep lockTables (fun s q => s.granted q) outside_lockTables.granted _ _

variable {p : Proc} {pid q : Pid} {s' s : Os} {dropped : List Pid} {status : Int}

theorem lockTables_eq (h : s'.lockTables = s.lockTables) :
    s'.fileLocks = s.fileLocks ∧ s'.lockWaiters = s.lockWaiters ∧ s'.waitedFiles = s.waitedFiles := by
  simpa [lockTables] using h

theorem lockGrants_congr (files : List Nat) (h : s'.lockTables = s.lockTables) :
    lockGrants files s' = lockGrants files s := by
  induction files generalizing s s' with
  | nil => rfl
  | cons file files ih =>
    obtain ⟨h1, h2, h3⟩ := lockTables_eq h
    unfold lockGrants
    rw [h1, h2, ih]
    rw [lockTables_wakeLockWaiters, lockTables_wakeLockWaiters, h1, h2, h3]

theorem releasedBy_congr (h : s'.lockTables = s.lockTables) : s'.releasedBy pid = s.releasedBy pid := by
  obtain ⟨h1, h2, h3⟩ := lockTables_eq h
  unfold releasedBy
  rw [h3]
  refine lockGrants_congr _ ?_
  change (fun file => (s'.fileLocks file).filter fun e => e.pid != pid, s'.lockWaiters, s.waitedFiles) =
    (fun file => (s.fileLocks file).filter fun e => e.pid != pid, s.lockWaiters, s.waitedFiles)
  rw [h1, h2]

theorem lockTables_exitHead (s : Os) : (s.exitHead dropped pid status p).lockTables = s.lockTables := by
  have hg := outside_lockTables
  have h1 := hg.markDead dropped pid status s
  unfold exitHead
  rw [foldl_keep lockTables _ hg.unblock, foldl_keep lockTables _ hg.unblock]
  split
  · unfold wakeFutex
    rw [hg.resumeAll]
    exact h1
  · exact h1

/-- The first phases: the process is dead, and the waiters of its thread word run. -/
theorem status_exitHead (hp : s.proc pid = some p) : (s.exitHead dropped pid status p).status q =
      if q ∈ (if clears p.clearTid then s.futexes p.clearTid else []) then none
      else if q = pid then some status else s.status q := by
  have h1 : (s.markDead dropped pid status).status q = if q = pid then some status else s.status q := by
    unfold markDead
    rw [foldl_keep Os.status (fun s q => s.enqueue q) fun _ _ => rfl, status_setProc, hp]
    rfl
  have h2 : (s.markDead dropped pid status).futexes = s.futexes := outside_futexes.markDead _ _ _ _
  unfold exitHead
  rw [foldl_keep Os.status _ fun _ _ => status_unblock, foldl_keep Os.status _ fun _ _ => status_unblock]
  split
  · unfold wakeFutex
    rw [status_resumeAll, h2]
    change (if _ then none else (s.markDead dropped pid status).status q) = _
    rw [h1]
  · rw [h1]
    rfl

theorem status_exit (hp : s.proc pid = some p) : (s.exit dropped pid status).status q =
      if q ∈ s.exitTouched pid p then none else if q = pid then some status else s.status q := by
  unfold exit
  rw [hp]
  dsimp only
  rw [exitFound_eq, status_milds (exitTail_milds pid status p _), status_releaseAllLocks,
    releasedBy_congr (lockTables_exitHead s), status_exitHead hp]
  unfold exitTouched
  simp only [List.mem_append]
  by_cases h1 : q ∈ s.releasedBy pid <;>
    by_cases h2 : q ∈ (if clears p.clearTid then s.futexes p.clearTid else []) <;> simp only [h1, h2] <;> rfl

/-! ## One step -/

/-- After a step those of the list are no zombies, and everyone else is what it was. -/
def Drops (l : List Pid) (s s' : Os) : Prop := ∀ q, s'.status q = if q ∈ l then none else s.status q

section Drops
variable {s s' : Os} {l : List Pid}

theorem Drops.of_eq (h : s'.status = s.status) : Drops [] s s' := fun q => by
  rw [h]
  rfl

/-- Zombies stay when none of them is dropped, and only then. -/
theorem Drops.absorbs_iff (h : Drops l s s') :
    (∀ q ∈ l, s.status q = none) ↔ ∀ q st, s.status q = some st → s'.status q = some st := by
  constructor
  · intro hl q st hq
    rw [h q, if_neg, hq]
    intro hm
    rw [hl q hm] at hq
    cases hq
  · intro hk q hm
    cases hq : s.status q with
    | none => rfl
    | some st =>
      have := hk q st hq
      rw [h q, if_pos hm] at this
      cases this

theorem stopCaller_drops (h : Nat) (me : Pid) (s : Os) : Drops [me] s (s.stopCaller h me) := fun q => by
  rw [status_stopCaller]
  simp only [List.mem_singleton]

variable {h statusPtr options : Nat} {me : Pid} {target : Int}

theorem sleepAgain_status : (s.sleepAgain h me).status = s.status :=
  status_setProc_same fun _ _ => rfl

theorem enter_status {pc : Nat} {call : Call} : (s.setProc me (Proc.enter pc call)).status = s.status :=
  status_setProc_same fun _ _ => rfl

theorem wakeSleepers_drops (now : Nat) (s : Os) : Drops (s.expired now) s (s.wakeSleepers now) := fun _ =>
  status_resumeAll _ _

theorem dispatch_status (h : Nat) (s : Os) : (s.dispatch h).status = s.status := by
  unfold dispatch
  split
  · split
    · rfl
    · dsimp only
      split
      · rfl
      · rename_i p hp
        split
        · rfl
        · rename_i hz
          refine status_setProc_same fun p' hp' => ?_
          have e : p' = p := Option.some.inj (hp'.symm.trans hp)
          subst e
          cases hs : p'.state with
          | running => rfl
          | stopped => rfl
          | zombie st =>
            rw [hs] at hz
            exact absurd rfl hz
  · rfl

theorem preempt_status (h pc : Nat) (s : Os) : (s.preempt h pc).status = s.status := by
  unfold preempt
  split
  · rfl
  · refine status_setProc_same fun p _ => ?_
    unfold Proc.interrupted
    split <;> rfl

theorem sysNanosleep_drops (h ptr now : Nat) (sec nsec : Int) (s : Os) :
    Drops (if ptr = 0 ∨ isUserPointerValid 16 ptr 1 = false then [] else [s.current h]) s
      (s.sysNanosleep h ptr now sec nsec) := by
  unfold sysNanosleep
  split
  · exact .of_eq status_setA0
  · intro q
    rw [stopCaller_drops, status_setA0]
    rfl

theorem sysFutex_drops (h pc addr op val word : Nat) (s : Os) :
    Drops ((LifeOp.futex h pc addr op val word).touched s) s (s.sysFutex h addr op val word) := by
  unfold sysFutex LifeOp.touched
  dsimp only
  split
  · exact .of_eq status_setA0
  · split
    · split
      · exact .of_eq status_setA0
      · intro q
        rw [stopCaller_drops, status_setA0]
        rfl
    · split
      · intro q
        rw [status_setA0, status_resumeAll]
        rfl
      · exact .of_eq status_setA0

theorem setLock_drops (h pc : Nat) (wait : Bool) (file : Nat) (type start len : Int) (s : Os) :
    Drops ((LifeOp.setLock h pc wait file type start len).touched s) s (s.setLock h wait file type start len) := by
  unfold setLock LifeOp.touched
  dsimp only
  split
  · intro q
    rw [status_setA0]
    unfold releaseRange
    rw [status_wakeLockWaiters]
    simp only [Function.update_self]
    rfl
  · split
    · rename_i hc
      rw [if_neg (by rw [hc.1]; decide), if_neg (by rw [hc.2]; decide)]
      intro q
      rw [stopCaller_drops, status_setIpc]
      rfl
    · rename_i hc
      split
      · exact .of_eq status_setA0
      · rename_i hany
        rw [if_pos]
        · exact .of_eq status_setA0
        · by_contra hw
          exact hc ⟨by simpa using hany, by simpa using hw⟩

theorem sysMailboxSend_status (h : Nat) (dest : Pid) (ptr len : Nat) (data : List (BitVec 8)) (s : Os) :
    (s.sysMailboxSend h dest ptr len data).status = s.status := by
  unfold sysMailboxSend
  split
  · exact status_setA0
  · split
    · exact status_setA0
    · rw [status_setA0]
      have hsame : (s.setProc dest fun p =>
          { p with mailbox := p.mailbox ++ [(s.current h, data)], mailboxWaiter := false }).status = s.status :=
        status_setProc_same fun _ _ => rfl
      split
      · rw [status_milds (wakeStopped_milds _ _), hsame]
      · exact hsame

theorem sysMailboxReceive_drops (h ptr maxLen : Nat) (s : Os) :
    Drops (if (s.proc (s.current h)).map Proc.mailbox = some [] then [s.current h] else []) s
      (s.sysMailboxReceive h ptr maxLen) := by
  unfold sysMailboxReceive
  dsimp only
  by_cases hm : (s.proc (s.current h)).map Proc.mailbox = some []
  · rw [if_pos hm]
    cases hp : s.proc (s.current h) with
    | none =>
      rw [hp] at hm
      cases hm
    | some p =>
      rw [hp] at hm
      dsimp only
      rw [Option.some.inj hm]
      intro q
      rw [sleepAgain_status, status_setProc_none fun _ => rfl]
      simp only [List.mem_singleton]
  · rw [if_neg hm]
    split
    · exact .of_eq rfl
    · rename_i p hp
      split
      · exact .of_eq (status_setA0.trans (status_setProc_same fun _ _ => rfl))
      · rename_i he
        exact absurd (by rw [hp, Option.map_some, he]) hm

theorem sysSetProcessState_drops (h : Nat) (cap : Bool) (target : Pid) (state : Nat) (s : Os) :
    Drops (if cap = true ∧ state ≠ 1 then [target] else []) s (s.sysSetProcessState h cap target state) := by
  unfold sysSetProcessState
  cases cap with
  | false => exact .of_eq status_setA0
  | true =>
    rw [if_neg (by decide : ¬true = false)]
    by_cases h1 : state = 1
    · rw [if_neg fun e => e.2 h1]
      cases s.proc target with
      | none => exact .of_eq status_setA0
      | some p =>
        rw [if_pos h1]
        exact .of_eq (status_setA0.trans (status_milds (wakeStopped_milds _ _)))
    · rw [if_pos ⟨rfl, h1⟩]
      intro q
      simp only [List.mem_singleton]
      cases hp : s.proc target with
      | none =>
        rw [status_setA0]
        split
        · rename_i e
          rw [e, status, hp]
          rfl
        · rfl
      | some p =>
        rw [if_neg h1, status_setA0, status_setProc_none fun _ => rfl]

theorem post_status (sig : Nat) (pid : Pid) (s : Os) : (s.post sig pid).status = s.status := by
  have hwake : ∀ s : Os, (s.wakeWithEintr pid).status = s.status := by
    intro s
    unfold wakeWithEintr
    split
    · rfl
    · rename_i p hp
      split
      · rename_i hst
        have hrun : ∀ s1 : Os, s1.status = s.status → (s1.setProc pid fun p =>
            { p with ipc := .none, sepc := p.sepc + 4, a0 := EINTR, state := .running }).status = s.status := by
          intro s1 h1
          refine Eq.trans (status_setProc_same fun p' hp' => ?_) h1
          rw [← status_of hp', h1, status_of hp, hst]
          rfl
        split
        · exact hrun _ (status_setProc_same fun _ _ => rfl)
        · exact hrun _ rfl
      · rfl
  unfold post
  dsimp only
  have hsame : (s.setProc pid fun p => { p with pendingSignals := p.pendingSignals ||| 1#32 <<< sig }).status = s.status :=
    status_setProc_same fun _ _ => rfl
  split
  · rw [hwake, hsame]
  · exact hsame

/-- A call that does not stop its caller reaps one child or changes nothing. -/
theorem reapZombie_status (zpid : Pid) (zstatus : Int) (parent : Pid) (s : Os) (q : Pid) :
    (s.reapZombie zpid zstatus parent).1.status q = s.status q ∨ (s.reapZombie zpid zstatus parent).1.proc q = none := by
  unfold reapZombie
  split
  · exact .inl (by rw [status_setA0])
  · by_cases e : q = zpid
    · right
      subst e
      unfold setA0
      rw [proc_setProc, proc_setProc]
      have hrem : proc { s with procs := s.procs.remove q } q = none := if_pos rfl
      rw [hrem]
      split <;> rfl
    · left
      have hrem : proc { s with procs := s.procs.remove zpid } q = s.proc q := if_neg e
      have hsame : ∀ s : Os, (s.setProc parent fun p =>
          { p with children := p.children.filter fun c => c ≠ zpid, waitTarget := none }).status = s.status :=
        fun _ => status_setProc_same fun _ _ => rfl
      rw [status_setA0, hsame, status, hrem]
      rfl

theorem sysWaitpid_sleeps {s : Os} (hs : s.waitpidSleeps h target statusPtr options = true) :
    s.sysWaitpid h target statusPtr options = (((s.setProc (s.current h) fun p =>
      { p with waitTarget := some target, state := .stopped }).sleepAgain h (s.current h)), none) := by
  unfold waitpidSleeps at hs
  simp only [Bool.and_eq_true, Bool.or_eq_true, beq_iff_eq, List.isEmpty_iff, Option.isNone_iff_eq_none] at hs
  obtain ⟨⟨⟨⟨⟨hptr, hres⟩, hz⟩, hany⟩, hopt⟩, hagain⟩ := hs
  unfold sysWaitpid waitAgain
  rw [if_neg (fun e => hptr.elim e.1 fun hv => by rw [hv] at e; cases e.2), hres]
  rw [hz]
  rw [if_neg (by rw [hany]; decide), if_neg (fun e => e hopt), hagain]

theorem sysWaitpid_returns {s : Os} (hs : s.waitpidSleeps h target statusPtr options = false) (q : Pid) :
    (s.sysWaitpid h target statusPtr options).1.status q = s.status q ∨
      (s.sysWaitpid h target statusPtr options).1.proc q = none := by
  unfold sysWaitpid
  dsimp only
  split
  · exact .inl (by rw [status_setA0])
  · rename_i hptr
    split
    · rename_i zpid zstatus rest _
      have hpop : (s.setProc (s.current h) fun p => { p with waitResult := rest }).status = s.status :=
        status_setProc_same fun _ _ => rfl
      rw [← hpop]
      exact reapZombie_status ..
    · rename_i hres
      split
      · exact reapZombie_status ..
      · rename_i hz
        split
        · exact .inl (by rw [status_setA0])
        · rename_i hany
          split
          · exact .inl (by rw [status_setA0])
          · rename_i hopt
            unfold waitAgain
            split
            · exact reapZombie_status ..
            · rename_i hagain
              -- nothing is left that would let the call return
              have hsl : s.waitpidSleeps h target statusPtr options = true := by
                unfold waitpidSleeps
                simp only [Bool.and_eq_true, Bool.or_eq_true, beq_iff_eq, List.isEmpty_iff, Option.isNone_iff_eq_none]
                refine ⟨⟨⟨⟨⟨?_, hres⟩, hz⟩, by simpa using hany⟩, by simpa using hopt⟩, hagain⟩
                by_contra hn
                rw [not_or] at hn
                exact hptr ⟨hn.1, by simpa using hn.2⟩
              rw [hs] at hsl
              cases hsl

end Drops
end Os

namespace LifeOp
variable {s : Os}

/-- The step neither reaps nor ends a process. -/
def Ordinary : LifeOp → Prop
  | waitpid .. => False
  | exit .. => False
  | _ => True

/-- Such a step drops those that it touches. -/
theorem body_drops (op : LifeOp) (ho : op.Ordinary) : Os.Drops (op.touched s) s (op.body s) := by
  cases op with
  | tick now => exact wakeSleepers_drops now s
  | dispatch h => exact .of_eq (dispatch_status h s)
  | preempt h pc => exact .of_eq (preempt_status h pc s)
  | idle h => exact .of_eq rfl
  | stop h => exact stopCaller_drops h _ s
  | nanosleep h pc ptr now sec nsec => exact sysNanosleep_drops h ptr now sec nsec s
  | futex h pc addr op val word => exact sysFutex_drops h pc addr op val word s
  | setLock h pc wait file type start len => exact setLock_drops h pc wait file type start len s
  | mailboxSend h pc dest ptr len data => exact .of_eq (sysMailboxSend_status h dest ptr len data s)
  | mailboxReceive h pc ptr maxLen => exact sysMailboxReceive_drops h ptr maxLen s
  | setState h pc cap target state => exact sysSetProcessState_drops h cap target state s
  | waitpid h pc target statusPtr options => exact ho.elim
  | signal sig pid => exact .of_eq (post_status sig pid s)
  | exit dropped pid status => exact ho.elim

/-- What a call needs is what its body needs of the state in which the caller has entered. -/
theorem step_call_iff (op : LifeOp) {h pc : Nat} {call : Call} {C : Os → Prop} (P : Os → Os → Prop)
    (hc : op.call = some (h, pc, call)) (hrefl : P s s) (hP : ∀ {s1 s'}, s1.status = s.status → (P s1 s' ↔ P s s'))
    (hbody : ∀ s, C s ↔ P s (op.body s)) : s.AtCall h pc call C ↔ P s (op.step s) := by
  unfold Os.AtCall step
  rw [hc]
  dsimp only
  unfold syscall
  cases s.caller h pc call with
  | none => exact ⟨fun _ => hrefl, fun _ => trivial⟩
  | some me => exact (hbody _).trans (hP enter_status)

/-- A zombie stays one with its status. -/
abbrev Stays (s s' : Os) : Prop := ∀ q st, s.status q = some st → s'.status q = some st

theorem step_stays_iff (op : LifeOp) (ho : op.Ordinary) : (match op.call with
      | none => ∀ q ∈ op.touched s, s.status q = none
      | some (h, pc, call) => s.AtCall h pc call fun s => ∀ q ∈ op.touched s, s.status q = none) ↔
      Stays s (op.step s) := by
  cases hc : op.call with
  | none =>
    unfold step
    rw [hc]
    exact (body_drops op ho).absorbs_iff
  | some x =>
    obtain ⟨h, pc, call⟩ := x
    refine step_call_iff op Stays hc (fun _ _ h => h) (fun {s1 s'} e => ?_) fun s => (body_drops op ho).absorbs_iff
    unfold Stays
    rw [e]

theorem waitpid_iff (h pc : Nat) (target : Int) (statusPtr options : Nat) :
    (waitpid h pc target statusPtr options).Safe s ↔
      (waitpid h pc target statusPtr options).Absorbs s ((waitpid h pc target statusPtr options).step s) := by
  change s.AtCall h pc (.waitpid target statusPtr options) (fun s =>
    ∀ q ∈ (waitpid h pc target statusPtr options).touched s, s.status q = none) ↔ _
  refine step_call_iff (.waitpid h pc target statusPtr options)
    (fun s s' => ∀ q st, s.status q = some st → s'.status q = some st ∨ s'.proc q = none) rfl (fun _ _ h => .inl h)
    (fun {s1 s'} e => ?_) fun s => ?_
  · rw [e]
  · change (∀ q ∈ (if s.waitpidSleeps h target statusPtr options then [s.current h] else []), s.status q = none) ↔
      ∀ q st, s.status q = some st → (s.sysWaitpid h target statusPtr options).1.status q = some st ∨
        (s.sysWaitpid h target statusPtr options).1.proc q = none
    cases hsl : s.waitpidSleeps h target statusPtr options with
    | true =>
      rw [sysWaitpid_sleeps hsl, if_pos rfl]
      have hd : Os.Drops [s.current h] s ((s.setProc (s.current h) fun p =>
          { p with waitTarget := some target, state := .stopped }).sleepAgain h (s.current h)) := fun q => by
        rw [sleepAgain_status, status_setProc_none fun _ => rfl]
        simp only [List.mem_singleton]
      rw [hd.absorbs_iff]
      refine forall₃_congr fun q st hq => (or_iff_left fun e => ?_).symm
      -- nobody leaves the table
      unfold sleepAgain at e
      rw [proc_leave, proc_setProc, proc_setProc] at e
      have hnone : s.proc q = none := by
        split at e <;> simpa using e
      rw [status, hnone] at hq
      cases hq
    | false =>
      refine ⟨fun _ q st hq => ?_, fun _ => nofun⟩
      rcases sysWaitpid_returns hsl q with e | e
      · exact .inl (e.trans hq)
      · exact .inr e

theorem exit_iff (dropped : List Pid) (pid : Pid) (status : Int) : (exit dropped pid status).Safe s ↔
      (exit dropped pid status).Absorbs s ((exit dropped pid status).step s) := by
  change (∀ p, s.proc pid = some p → (∀ st, s.status pid = some st → st = status) ∧
      ∀ q ∈ s.exitTouched pid p, s.status q = none ∧ q ≠ pid) ↔
    Stays s (s.exit dropped pid status) ∧
      ((s.proc pid).isSome = true → (s.exit dropped pid status).status pid = some status)
  cases hp : s.proc pid with
  | none =>
    have hsame : s.exit dropped pid status = s := by
      unfold Os.exit
      rw [hp]
    rw [hsame]
    exact ⟨fun _ => ⟨fun _ _ h => h, fun e => by cases e⟩, fun _ _ e => by cases e⟩
  | some p =>
    constructor
    · intro hsafe
      obtain ⟨hst, htouch⟩ := hsafe p rfl
      have hpid : pid ∉ s.exitTouched pid p := fun hm => (htouch pid hm).2 rfl
      refine ⟨fun q st hq => ?_, fun _ => ?_⟩
      · rw [status_exit hp, if_neg fun hm => by rw [(htouch q hm).1] at hq; cases hq]
        split
        · rename_i e
          rw [hst st (e ▸ hq)]
        · exact hq
      · rw [status_exit hp, if_neg hpid, if_pos rfl]
    · rintro ⟨hstay, hend⟩ p' e
      cases e
      have hend := hend rfl
      have hpid : pid ∉ s.exitTouched pid p := fun hm => by
        rw [status_exit hp, if_pos hm] at hend
        cases hend
      refine ⟨fun st hq => ?_, fun q hm => ⟨?_, fun e => hpid (e ▸ hm)⟩⟩
      · have := hstay pid st hq
        rw [hend] at this
        exact (Option.some.inj this).symm
      · cases hq : s.status q with
        | none => rfl
        | some st =>
          have := hstay q st hq
          rw [status_exit hp, if_pos hm] at this
          cases this

/-- The condition is exactly what the step needs. -/
theorem safe_iff (op : LifeOp) (s : Os) : op.Safe s ↔ op.Absorbs s (op.step s) := by
  have hord (ho : op.Ordinary) := step_stays_iff (s := s) op ho
  cases op with
  | waitpid h pc target statusPtr options => exact waitpid_iff h pc target statusPtr options
  | exit dropped pid status => exact exit_iff dropped pid status
  | _ => exact hord trivial

end LifeOp

/-! ## Whole runs -/

/-- From any state, zombies stay zombies along a run exactly when every step makes running or stopped, without looking,
only processes that are no zombies, and no zombie exits with another status. -/
theorem zombies_stay_iff (ops : List LifeOp) (s : Os) :
    Along LifeOp.run (fun op s _ => op.Safe s) ops s ↔ Along LifeOp.run LifeOp.Absorbs ops s := by
  refine along_iff_rel (I := fun _ => True) (fun op s _ => ?_) trivial
  exact Cmd.wp_of_ok rfl ⟨op.safe_iff s, fun _ => trivial⟩

/-- The first process sleeps and is killed; when its time has come the timer makes it running. -/
theorem killed_sleeper_runs : ¬Along LifeOp.run LifeOp.Absorbs
    [.dispatch 0, .nanosleep 0 0x1000 0x100000000 0 1 0, .exit [] 1 9, .tick 10000000] irqExample := by
  intro h
  have hst := h.2.2.2.1 1 9 (by decide)
  revert hst
  decide

end OpenV.Sched
