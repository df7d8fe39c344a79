import OpenV.Lib.Index
import OpenV.Sched.Zombies

/- Who a `FUTEX_WAKE` wakes. Beside the system there is a record of who really waits:
   `waits q` is the word that `q` went to sleep on and has been asleep on since. The
   table of the kernel agrees with it as long as nothing but a wake on the word ends
   a wait, which signals and exits do without touching the table. -/
namespace OpenV.Sched

open Function Proc Os Sched.LifeOp

namespace Os

def stateOf (s : Os) (q : Pid) : Option ProcState := (s.proc q).map state

/-- The page table of a process. -/
def spaceOf (s : Os) (q : Pid) : Option Nat := (s.proc q).map space

end Os

structure FutexRun where
  os : Os
  waits : Pid → Option Nat

namespace LifeOp

/-- The process that the step puts to sleep in a `FUTEX_WAIT`, and the word. -/
def sleeper (op : LifeOp) (s : Os) : Option (Pid × Nat) :=
  match op with
  | futex h pc addr op val word =>
    if isUserPointerValid 4 addr 1 = true ∧ op = futexWait ∧ word = val % 2 ^ 32 then
      (s.caller h pc (.futexWait addr)).map fun me => (me, addr)
    else none
  | _ => none

/-- A process waits from the call that put it to sleep for as long as it is stopped. -/
def futexStep (op : LifeOp) (x : FutexRun) : FutexRun where
  os := op.step x.os
  waits q :=
    match op.sleeper x.os with
    | some (me, addr) => if q = me then some addr else if (op.step x.os).stateOf q = some .stopped then x.waits q else none
    | none => if (op.step x.os).stateOf q = some .stopped then x.waits q else none

def runFutex (op : LifeOp) : Cmd FutexRun Unit := fun x => (.ok (), op.futexStep x)

end LifeOp

/-- The processes that wait on the word `addr` of the address space `space`. -/
def FutexRun.waiters (x : FutexRun) (addr : Nat) (space : Option Nat) : List Pid :=
  x.os.procs.keys.filter fun q => x.waits q = some addr ∧ x.os.spaceOf q = space

/-- `FUTEX_WAKE(addr, n)` by `me` wakes as many as it says, all of them waiters on this word of the caller's address
space, and returns their number. -/
def WokeRight (me : Pid) (addr n : Nat) (x x' : FutexRun) : Prop :=
  ∃ woken, woken.Nodup ∧ (∀ q ∈ woken, q ∈ x.waiters addr (x.os.spaceOf me)) ∧
    woken.length = min n (x.waiters addr (x.os.spaceOf me)).length ∧
    x'.os.queued = x.os.queued ++ woken ∧
    (∀ q, x'.os.stateOf q = if q ∈ woken then some .running else x.os.stateOf q) ∧
    (x'.os.proc me).map a0 = some woken.length

/-- Every `FUTEX_WAKE` on a word that the caller may name does what it says. -/
def LifeOp.WakesRight (op : LifeOp) (x x' : FutexRun) : Prop :=
  match op with
  | .futex h pc addr op val _ => op = futexWake → isUserPointerValid 4 addr 1 = true →
      ∀ me, x.os.caller h pc .other = some me → WokeRight me addr val x x'
  | _ => True

/-- A waiter waits on, unless the word it waits on is cleared by the exit of a thread. -/
def LifeOp.KeepsWaits (op : LifeOp) (x : FutexRun) : Prop :=
  ∀ q addr, x.waits q = some addr → (op.step x.os).stateOf q = some .stopped ∨
    match op with
    | .exit _ pid _ => ∃ p, x.os.proc pid = some p ∧ clears p.clearTid = true ∧ p.clearTid = addr
    | _ => False

/-- What the step needs: a wake asks for at least one and finds waiters of its own address space only; who goes to
sleep does not sleep already; nothing else ends a wait. -/
def LifeOp.FutexSafe (op : LifeOp) (x : FutexRun) : Prop :=
  match op with
  | .futex h pc addr op val word =>
    (op = futexWake → val ≠ 0 ∧ ∀ me, x.os.caller h pc .other = some me →
      ∀ q, x.waits q = some addr → x.os.spaceOf q = x.os.spaceOf me) ∧
    ∀ me a, (futex h pc addr op val word).sleeper x.os = some (me, a) → x.waits me = none
  | op => op.KeepsWaits x

/-! ## The table and the record agree -/

structure FutexInv (x : FutexRun) : Prop where
  table : Indexed x.os.futexes x.waits
  asleep : ∀ q addr, x.waits q = some addr → x.os.stateOf q = some .stopped

namespace Os
variable {s : Os} {q k : Pid}

theorem stateOf_setProc_same {f : Proc → Proc} (h : ∀ p, (f p).state = p.state) :
    (s.setProc k f).stateOf = s.stateOf := by
  funext q
  unfold stateOf
  rw [proc_setProc]
  split
  · cases s.proc q with
    | none => rfl
    | some p => exact congrArg some (h p)
  · rfl

theorem stateOf_enter {pc : Nat} {call : Call} : (s.setProc k (enter pc call)).stateOf = s.stateOf :=
  stateOf_setProc_same fun _ => rfl

variable {v : Nat} {dropped : List Pid} {pid : Pid} {status : Int} {p : Proc} {s' : Os}

theorem stateOf_setA0 : (s.setA0 k v).stateOf = s.stateOf := stateOf_setProc_same fun _ => rfl

theorem a0_setA0 (h : (s.stateOf k).isSome = true) : ((s.setA0 k v).proc k).map a0 = some v := by
  obtain ⟨st, hst⟩ := Option.isSome_iff_exists.mp h
  obtain ⟨p, hp, -⟩ := Option.map_eq_some_iff.mp hst
  unfold setA0
  rw [proc_setProc_self, hp]
  rfl

theorem stateOf_setState {st : ProcState} : (s.setProc k fun p => { p with state := st }).stateOf q =
    if q = k then (s.stateOf q).map fun _ => st else s.stateOf q := by
  unfold stateOf
  rw [proc_setProc]
  split
  · cases s.proc q <;> rfl
  · rfl

theorem stateOf_resume : (s.resume k).stateOf q =
    if q = k then (s.stateOf q).map fun _ => .running else s.stateOf q := by
  unfold resume
  split
  · rename_i hp
    split
    · rename_i e
      subst e
      unfold stateOf
      rw [hp]
      rfl
    · rfl
  · exact stateOf_setState

theorem stateOf_resumeAll (l : List Pid) (s : Os) : (s.resumeAll l).stateOf q =
    if q ∈ l then (s.stateOf q).map fun _ => .running else s.stateOf q := by
  induction l generalizing s with
  | nil => rfl
  | cons k l ih =>
    change ((s.resume k).resumeAll l).stateOf q = _
    rw [ih, stateOf_resume]
    by_cases h1 : q ∈ l <;> by_cases h2 : q = k <;> simp [h2, Function.comp_def]

/-- Those of the list that exist join the run queue. -/
theorem queued_resumeAll (l : List Pid) (s : Os) (h : ∀ q ∈ l, (s.stateOf q).isSome = true) :
    (s.resumeAll l).queued = s.queued ++ l := by
  induction l generalizing s with
  | nil => exact (List.append_nil _).symm
  | cons k l ih =>
    change ((s.resume k).resumeAll l).queued = _
    have hk : (s.resume k).queued = s.queued ++ [k] := by
      have := h k (.head _)
      unfold stateOf at this
      unfold resume
      split
      · rename_i hp
        rw [hp] at this
        cases this
      · rw [queued_enqueueWithPrio]
        rfl
    rw [ih, hk, List.append_assoc]
    · rfl
    · intro q hq
      rw [stateOf_resume]
      split
      · rw [Option.isSome_map]
        exact h q (.tail _ hq)
      · exact h q (.tail _ hq)

/-- `exit` lets go of who waits on the word that it clears. -/
theorem exit_futexes (hp : s.proc pid = some p) : (s.exit dropped pid status).futexes =
      if clears p.clearTid then update s.futexes p.clearTid [] else s.futexes := by
  have hg := outside_futexes
  have hlocks : ∀ (s : Os) (file : Nat), (s.wakeLockWaiters file).futexes = s.futexes := fun s file => by
    exact foldl_keep futexes (fun s q => s.granted q) hg.granted _ _
  unfold exit
  rw [hp]
  dsimp only
  rw [exitFound_eq, hg.milds (exitTail_milds pid status p _)]
  unfold releaseAllLocks
  rw [foldl_keep futexes (fun s file => s.wakeLockWaiters file) hlocks]
  unfold exitHead
  rw [foldl_keep futexes _ hg.unblock, foldl_keep futexes _ hg.unblock]
  have h1 := hg.markDead dropped pid status s
  split
  · unfold wakeFutex
    rw [hg.resumeAll]
    rw [h1]
  · exact h1

/-- Nobody becomes stopped. -/
def NoneStops (s s' : Os) : Prop := ∀ q, s'.stateOf q = some .stopped → s.stateOf q = some .stopped

theorem NoneStops.of_each {R : Proc → Proc → Prop} (h : s.Each R s')
    (hR : ∀ {p p'}, R p p' → p'.state = .stopped → p.state = .stopped) : NoneStops s s' := by
  intro q hst
  obtain ⟨p', hp', hs'⟩ := Option.map_eq_some_iff.mp hst
  obtain ⟨p, hp, hr⟩ := h.of_some hp'
  rw [stateOf, hp, Option.map_some, hR hr hs']

theorem NoneStops.edited (h : s.Edited s') : NoneStops s s' := by
  refine .of_each h.each fun {p p'} hed => ?_
  induction hed with
  | refl => exact id
  | tail _ hstep ih =>
    intro hb
    apply ih
    cases hstep <;> first | exact hb | cases hb

theorem NoneStops.milds (h : Milds s s') : NoneStops s s' := by
  refine .of_each (h.each (R := fun p p' => p'.state = .stopped → p.state = .stopped) (fun _ => id)
    (fun f g => f ∘ g) (fun {p p'} hsoft hst => ?_) (fun _ => nofun)) fun h => h
  rw [hsoft] at hst
  exact hst

/-- Those who waited on the cleared word are not stopped when `exit` is done. -/
theorem exit_lets_go (hp : s.proc pid = some p) (hc : clears p.clearTid = true) (hq : q ∈ s.futexes p.clearTid) :
    (s.exit dropped pid status).stateOf q ≠ some .stopped := by
  have hfut : (s.markDead dropped pid status).futexes = s.futexes := outside_futexes.markDead dropped pid status s
  have hwoken : ((s.markDead dropped pid status).wakeFutex p.clearTid).stateOf q ≠ some .stopped := by
    unfold wakeFutex
    rw [stateOf_resumeAll, hfut, if_pos hq]
    intro e
    obtain ⟨_, _, e⟩ := Option.map_eq_some_iff.mp e
    cases e
  have hhead : (s.exitHead dropped pid status p).stateOf q ≠ some .stopped := by
    unfold exitHead
    rw [hc]
    exact fun e => hwoken (NoneStops.edited ((Edited.foldl (fun s q => unblock_edited q s) _ _).trans
      (Edited.foldl (fun s q => unblock_edited q s) _ _)) q e)
  unfold exit
  rw [hp]
  dsimp only
  intro e
  exact hhead (NoneStops.edited (releaseAllLocks_edited pid _) q (NoneStops.milds (exitTail_milds pid status p _) q e))

end Os

namespace LifeOp
variable {s : Os}

/-- The step has nothing to do with futexes. -/
def NoFutex : LifeOp → Prop
  | futex .. => False
  | exit .. => False
  | _ => True

theorem body_futexes (op : LifeOp) (ho : op.NoFutex) : (op.body s).futexes = s.futexes := by
  have hg := outside_futexes
  cases op with
  | tick now => exact hg.resumeAll _ _
  | dispatch h =>
    change (s.dispatch h).futexes = _
    unfold Os.dispatch
    split
    · split
      · rfl
      · dsimp only
        split
        · rfl
        · split <;> rfl
    · rfl
  | preempt h pc =>
    change (s.preempt h pc).futexes = _
    unfold Os.preempt
    split <;> rfl
  | idle h => rfl
  | stop h => rfl
  | nanosleep h pc ptr now sec nsec =>
    change (s.sysNanosleep h ptr now sec nsec).futexes = _
    unfold sysNanosleep
    split <;> rfl
  | futex h pc addr op val word => exact ho.elim
  | setLock h pc wait file type start len =>
    change (s.setLock h wait file type start len).futexes = _
    unfold Os.setLock
    dsimp only
    split
    · unfold setA0 releaseRange wakeLockWaiters
      exact foldl_keep futexes (fun s q => s.granted q) hg.granted _ _
    · split
      · rfl
      · split <;> rfl
  | mailboxSend h pc dest ptr len data =>
    change (s.sysMailboxSend h dest ptr len data).futexes = _
    unfold sysMailboxSend
    split
    · rfl
    · split
      · rfl
      · unfold setA0
        rw [hg.setProc]
        split
        · rw [hg.milds (wakeStopped_milds _ _), hg.setProc]
        · rfl
  | mailboxReceive h pc ptr maxLen =>
    change (s.sysMailboxReceive h ptr maxLen).futexes = _
    unfold sysMailboxReceive
    dsimp only
    split
    · rfl
    · split <;> rfl
  | setState h pc cap target state =>
    change (s.sysSetProcessState h cap target state).futexes = _
    unfold sysSetProcessState
    split
    · rfl
    · split
      · rfl
      · unfold setA0
        rw [hg.setProc]
        split
        · exact hg.milds (wakeStopped_milds _ _)
        · rfl
  | waitpid h pc target statusPtr options =>
    change (s.sysWaitpid h target statusPtr options).1.futexes = _
    have hreap : ∀ (zpid : Pid) (zstatus : Int) (parent : Pid) (s : Os),
        (s.reapZombie zpid zstatus parent).1.futexes = s.futexes := by
      intro zpid zstatus parent s
      unfold Os.reapZombie
      split <;> rfl
    unfold sysWaitpid waitAgain
    dsimp only
    split
    · rfl
    · split
      · exact hreap ..
      · split
        · exact hreap ..
        · split
          · rfl
          · split
            · rfl
            · split
              · exact hreap ..
              · rfl
  | signal sig pid => exact hg.post sig pid s
  | exit dropped pid status => exact ho.elim

theorem step_futexes (op : LifeOp) (ho : op.NoFutex) : (op.step s).futexes = s.futexes := by
  unfold step
  split
  · exact body_futexes op ho
  · unfold syscall
    cases s.caller _ _ _ with
    | none => rfl
    | some me => exact body_futexes op ho

end LifeOp

section Step
variable {x : FutexRun} {op : LifeOp}

/-- When nothing goes to sleep and all who wait are still stopped, the record stays. -/
theorem waits_same (hs : op.sleeper x.os = none)
    (hk : ∀ q addr, x.waits q = some addr → (op.step x.os).stateOf q = some .stopped) :
    (op.futexStep x).waits = x.waits := by
  funext q
  unfold futexStep
  rw [hs]
  dsimp only
  cases hq : x.waits q with
  | none => split <;> rfl
  | some addr => rw [if_pos (hk q addr hq)]

/-- The table is not touched and all who wait wait on. -/
theorem FutexInv.same (hx : FutexInv x) (hf : (op.step x.os).futexes = x.os.futexes) (hs : op.sleeper x.os = none)
    (hk : ∀ q addr, x.waits q = some addr → (op.step x.os).stateOf q = some .stopped) : FutexInv (op.futexStep x) := by
  have hw := waits_same hs hk
  refine ⟨hx.table.congr hf hw, fun q addr hq => ?_⟩
  rw [hw] at hq
  exact hk q addr hq

theorem FutexInv.exit {dropped : List Pid} {pid : Pid} {status : Int} (hx : FutexInv x)
    (hk : (LifeOp.exit dropped pid status).KeepsWaits x) : FutexInv ((LifeOp.exit dropped pid status).futexStep x) := by
  have hwaits : ∀ q, ((LifeOp.exit dropped pid status).futexStep x).waits q =
      if (x.os.exit dropped pid status).stateOf q = some .stopped then x.waits q else none := fun _ => rfl
  cases hp : x.os.proc pid with
  | none =>
    have hsame : x.os.exit dropped pid status = x.os := by
      unfold Os.exit
      rw [hp]
    refine hx.same (congrArg futexes hsame) rfl fun q addr hq => ?_
    change (x.os.exit dropped pid status).stateOf q = _
    rw [hsame]
    exact hx.asleep q addr hq
  | some p =>
    by_cases hc : clears p.clearTid = true
    · have hfut : (x.os.exit dropped pid status).futexes = update x.os.futexes p.clearTid [] := by
        rw [exit_futexes hp, if_pos hc]
      refine ⟨hx.table.clear (t := p.clearTid) ?_ ?_ ?_ ?_, fun q addr hq => ?_⟩
      · change (x.os.exit dropped pid status).futexes p.clearTid = []
        rw [hfut, update_self]
      · intro u hu
        change (x.os.exit dropped pid status).futexes u = _
        rw [hfut, update_of_ne hu]
      · intro q hq
        rw [hwaits, if_neg (exit_lets_go hp hc hq)]
      · intro q hq
        rw [hwaits]
        cases hw : x.waits q with
        | none => split <;> rfl
        | some addr =>
          rw [if_pos]
          refine (hk q addr hw).resolve_right ?_
          rintro ⟨p', hp', _, rfl⟩
          rw [hp] at hp'
          cases hp'
          exact hq ((hx.table.mem _ q).mpr hw)
      · rw [hwaits] at hq
        split at hq
        · assumption
        · cases hq
    · refine hx.same ?_ rfl fun q addr hq => (hk q addr hq).resolve_right ?_
      · change (x.os.exit dropped pid status).futexes = _
        rw [exit_futexes hp, if_neg hc]
      · rintro ⟨p', hp', hc', _⟩
        rw [hp] at hp'
        cases hp'
        exact hc hc'

/-! ## The calls -/

variable {h pc addr o val word : Nat} {me : Pid} {p : Proc}

/-- Who goes to sleep joins the queue of the word. -/
theorem FutexInv.wait {call : Call} (hx : FutexInv x) (hp : x.os.proc me = some p) (hn : x.waits me = none)
    (hsl : op.sleeper x.os = some (me, addr)) (hstep : op.step x.os = ({ x.os.setProc me (enter pc call) with
      futexes := update x.os.futexes addr (x.os.futexes addr ++ [me]) }.setA0 me 0).stopCaller h me) :
    FutexInv (op.futexStep x) := by
  have hstate : ∀ q, (op.step x.os).stateOf q =
      if q = me then (x.os.stateOf q).map fun _ => .stopped else x.os.stateOf q := by
    intro q
    rw [hstep]
    change (setProc me (fun p => { p with state := .stopped }) _).stateOf q = _
    rw [stateOf_setState, stateOf_setA0]
    change (if q = me then ((x.os.setProc me (enter pc call)).stateOf q).map _
      else (x.os.setProc me (enter pc call)).stateOf q) = _
    rw [stateOf_enter]
  have hwaits : ∀ q, (op.futexStep x).waits q = if q = me then some addr else x.waits q := by
    intro q
    unfold futexStep
    rw [hsl]
    dsimp only
    split
    · rfl
    · rename_i hq
      rw [hstate q, if_neg hq]
      cases hwq : x.waits q with
      | none => split <;> rfl
      | some a => rw [if_pos (hx.asleep q a hwq)]
  have hfut : (op.step x.os).futexes = update x.os.futexes addr (x.os.futexes addr ++ [me]) := by
    rw [hstep]
    rfl
  constructor
  · refine hx.table.join hn (t := addr) ?_ (fun u hu => ?_) ?_ fun r hr => ?_
    · exact (congrFun hfut addr).trans (update_self ..)
    · exact (congrFun hfut u).trans (update_of_ne hu ..)
    · rw [hwaits, if_pos rfl]
    · rw [hwaits, if_neg hr]
  · intro q a hq
    change (op.step x.os).stateOf q = _
    rw [hstate]
    rw [hwaits] at hq
    split
    · rename_i e
      rw [e, stateOf, hp]
      rfl
    · rename_i hne
      rw [if_neg hne] at hq
      exact hx.asleep q a hq

theorem mem_waiters {space : Option Nat} {q : Pid} (hst : x.os.stateOf q = some .stopped) :
    q ∈ x.waiters addr space ↔ x.waits q = some addr ∧ x.os.spaceOf q = space := by
  obtain ⟨p, hp, -⟩ := Option.map_eq_some_iff.mp hst
  unfold FutexRun.waiters
  rw [List.mem_filter, decide_eq_true_iff]
  exact and_iff_right (mem_keys_of hp)

/-- The queue of a word is as long as there are waiters, when all are of one address space. -/
theorem FutexInv.length_waiters (hx : FutexInv x) (hsp : ∀ q, x.waits q = some addr → x.os.spaceOf q = x.os.spaceOf me) :
    (x.waiters addr (x.os.spaceOf me)).length = (x.os.futexes addr).length := by
  refine List.Perm.length_eq ((List.perm_ext_iff_of_nodup (x.os.procs.nodup.filter _) (hx.table.nodup addr)).mpr ?_)
  intro q
  rw [hx.table.mem]
  constructor
  · intro hq
    exact (of_decide_eq_true (List.mem_filter.mp hq).2).1
  · intro hq
    exact (mem_waiters (hx.asleep q addr hq)).mpr ⟨hq, hsp q hq⟩

/-- A wake takes the first ones of the queue, which are all waiters of the caller's space. -/
theorem FutexInv.wake {call : Call} (hx : FutexInv x) (hp : x.os.proc me = some p) (hsl : op.sleeper x.os = none)
    (hsp : ∀ q, x.waits q = some addr → x.os.spaceOf q = x.os.spaceOf me)
    (hstep : op.step x.os = (resumeAll ((x.os.futexes addr).take val) { x.os.setProc me (enter pc call) with
      futexes := update x.os.futexes addr ((x.os.futexes addr).drop val) }).setA0 me
        ((x.os.futexes addr).take val).length) :
    FutexInv (op.futexStep x) ∧ WokeRight me addr val x (op.futexStep x) := by
  generalize hwoken : (x.os.futexes addr).take val = woken at hstep
  have hin : ∀ q ∈ woken, x.waits q = some addr := fun q hq =>
    (hx.table.mem addr q).mp (List.mem_of_mem_take (hwoken ▸ hq))
  have hstate : ∀ q, (op.step x.os).stateOf q = if q ∈ woken then some .running else x.os.stateOf q := by
    intro q
    rw [hstep, stateOf_setA0, stateOf_resumeAll]
    change (if q ∈ woken then ((x.os.setProc me (enter pc call)).stateOf q).map _
      else (x.os.setProc me (enter pc call)).stateOf q) = _
    rw [stateOf_enter]
    split
    · rename_i hq
      rw [hx.asleep q addr (hin q hq)]
      rfl
    · rfl
  have hfut : (op.step x.os).futexes = update x.os.futexes addr ((x.os.futexes addr).drop val) := by
    rw [hstep]
    exact (outside_futexes.setProc _ _ _).trans (outside_futexes.resumeAll _ _)
  have hwaits : ∀ q, (op.futexStep x).waits q =
      if (op.step x.os).stateOf q = some .stopped then x.waits q else none := by
    intro q
    unfold futexStep
    rw [hsl]
  refine ⟨⟨hx.table.drain (t := addr) val ?_ (fun u hu => ?_) (fun q hq => ?_) (fun q hq => ?_), fun q a hq => ?_⟩,
    woken, ?_, fun q hq => ?_, ?_, ?_, hstate, ?_⟩
  · exact (congrFun hfut addr).trans (update_self ..)
  · exact (congrFun hfut u).trans (update_of_ne hu ..)
  · rw [hwoken] at hq
    rw [hwaits, hstate, if_pos hq]
    rfl
  · rw [hwoken] at hq
    rw [hwaits, hstate, if_neg hq]
    cases hw : x.waits q with
    | none => split <;> rfl
    | some a => rw [if_pos (hx.asleep q a hw)]
  · rw [hwaits] at hq
    split at hq
    · assumption
    · cases hq
  · exact hwoken ▸ (hx.table.nodup addr).sublist (List.take_sublist _ _)
  · exact (mem_waiters (hx.asleep q addr (hin q hq))).mpr ⟨hin q hq, hsp q (hin q hq)⟩
  · rw [← hwoken, List.length_take, hx.length_waiters hsp]
  · change (op.step x.os).queued = _
    rw [hstep]
    change (resumeAll woken _).queued = _
    rw [queued_resumeAll]
    · rfl
    · intro q hq
      change ((x.os.setProc me (enter pc call)).stateOf q).isSome = true
      rw [stateOf_enter, hx.asleep q addr (hin q hq)]
      rfl
  · change ((op.step x.os).proc me).map a0 = _
    rw [hstep]
    refine a0_setA0 ?_
    rw [stateOf_resumeAll]
    change (if me ∈ woken then ((x.os.setProc me (enter pc call)).stateOf me).map _
      else (x.os.setProc me (enter pc call)).stateOf me).isSome = true
    rw [stateOf_enter, stateOf, hp]
    split <;> rfl

/-- A call that only sets its result. -/
theorem FutexInv.refused {v : Nat} {call : Call} (hx : FutexInv x) (hsl : op.sleeper x.os = none)
    (hstep : op.step x.os = (x.os.setProc me (enter pc call)).setA0 me v) : FutexInv (op.futexStep x) := by
  refine hx.same ?_ hsl fun q a hq => ?_
  · rw [hstep]
    rfl
  · rw [hstep, stateOf_setA0, stateOf_enter]
    exact hx.asleep q a hq

theorem FutexInv.futex (hx : FutexInv x) (hs : (futex h pc addr o val word).FutexSafe x) :
    FutexInv ((futex h pc addr o val word).futexStep x) ∧
      (futex h pc addr o val word).WakesRight x ((futex h pc addr o val word).futexStep x) := by
  have hcall : (LifeOp.futex h pc addr o val word).step x.os =
      x.os.syscall h pc (if o = futexWait then .futexWait addr else .other) (sysFutex h addr o val word) := rfl
  unfold syscall at hcall
  cases hc : x.os.caller h pc (if o = futexWait then .futexWait addr else .other) with
  | none =>
    rw [hc] at hcall
    have hsl : (LifeOp.futex h pc addr o val word).sleeper x.os = none := by
      unfold sleeper
      dsimp only
      split
      · rename_i e
        rw [if_pos e.2.1] at hc
        rw [hc]
        rfl
      · rfl
    refine ⟨hx.same (congrArg futexes hcall) hsl fun q a hq => ?_, fun e _ me hme => ?_⟩
    · rw [hcall]
      exact hx.asleep q a hq
    · subst e
      rw [if_neg (by decide), hme] at hc
      cases hc
  | some me =>
    obtain ⟨hme, p, hp, -⟩ := caller_eq hc
    rw [hc] at hcall
    dsimp only [Option.elim] at hcall
    unfold sysFutex at hcall
    rw [current_setProc, ← hme] at hcall
    by_cases hv : isUserPointerValid 4 addr 1 = true
    swap
    · rw [if_pos (by simpa using hv)] at hcall
      exact ⟨hx.refused (if_neg fun e => hv e.1) hcall, fun _ e => absurd e hv⟩
    rw [if_neg (by rw [hv]; decide)] at hcall
    by_cases hwait : o = futexWait
    · subst hwait
      rw [if_pos rfl] at hc hcall
      refine ⟨?_, nofun⟩
      by_cases hw : word = val % 2 ^ 32
      · rw [if_neg (not_not.mpr hw)] at hcall
        have hsl : (futex h pc addr futexWait val word).sleeper x.os = some (me, addr) :=
          (if_pos ⟨hv, rfl, hw⟩).trans (by rw [hc]; rfl)
        exact hx.wait hp (hs.2 me addr hsl) hsl hcall
      · rw [if_pos hw] at hcall
        exact hx.refused (if_neg fun e => hw e.2.2) hcall
    · rw [if_neg hwait] at hc hcall
      by_cases hwake : o = futexWake
      · subst hwake
        obtain ⟨hval, hsp⟩ := hs.1 rfl
        unfold drained at hcall
        rw [if_neg hval] at hcall
        have hsl : (futex h pc addr futexWake val word).sleeper x.os = none := if_neg fun e => hwait e.2.1
        obtain ⟨hinv, hwoke⟩ := hx.wake hp hsl (hsp me hc) hcall
        refine ⟨hinv, fun _ _ me' hme' => ?_⟩
        cases hc.symm.trans hme'
        exact hwoke
      · rw [if_neg hwake] at hcall
        exact ⟨hx.refused (if_neg fun e => hwait e.2.1) hcall, fun e => absurd e hwake⟩

theorem LifeOp.futexStep_inv (op : LifeOp) (hx : FutexInv x) (hs : op.FutexSafe x) :
    FutexInv (op.futexStep x) ∧ op.WakesRight x (op.futexStep x) := by
  -- the steps that have nothing to do with futexes
  have hother : ∀ op : LifeOp, op.NoFutex → op.sleeper x.os = none →
      (∀ q addr, x.waits q = some addr → (op.step x.os).stateOf q = some .stopped ∨ False) → FutexInv (op.futexStep x) :=
    fun op ho hsl hk => hx.same (step_futexes op ho) hsl fun q addr hq => (hk q addr hq).resolve_right id
  cases op with
  | futex h pc addr o val word => exact hx.futex hs
  | exit dropped pid status => exact ⟨hx.exit hs, trivial⟩
  | _ => exact ⟨hother _ trivial rfl hs, trivial⟩

end Step

/-! ## Whole runs -/

/-- Nobody waits on a word. -/
def FutexStart (x : FutexRun) : Prop := (∀ addr, x.os.futexes addr = []) ∧ ∀ q, x.waits q = none

theorem FutexStart.inv {x : FutexRun} (h : FutexStart x) : FutexInv x where
  table :=
    { nodup := fun addr => by rw [h.1 addr]; exact List.nodup_nil
      mem := fun addr q => by rw [h.1 addr, h.2 q]; exact ⟨nofun, nofun⟩ }
  asleep q addr hq := by
    rw [h.2 q] at hq
    cases hq

/-- In every run in which nothing but a wake on its word ends a process's wait, every wake asks for at least one
process and finds only waiters of its own address space on the word, and nobody goes to sleep twice, each `FUTEX_WAKE`
wakes as many of the waiters as it says and returns their number. -/
theorem futex_wakes_right {x : FutexRun} (hx : FutexStart x) (ops : List LifeOp)
    (hsafe : Along runFutex (fun op x _ => op.FutexSafe x) ops x) : Along runFutex LifeOp.WakesRight ops x := by
  refine Along.of_inv FutexInv (fun op x hx hs => ?_) hx.inv hsafe
  exact Cmd.wp_of_ok rfl (op.futexStep_inv hx hs)

/-- The first process waits on a word and the second one wakes it. -/
def futexExampleRun : List LifeOp :=
  [.dispatch 0, .futex 0 0x1000 0x100000000 futexWait 0 0, .dispatch 0, .futex 0 0x1000 0x100000000 futexWake 1 0]

/-- Two threads of one address space. -/
theorem futex_wakes_right_thread : Along runFutex LifeOp.WakesRight futexExampleRun ⟨irqExample, fun _ => none⟩ := by
  have hone : ∀ q a, ((futex 0 0x1000 0x100000000 futexWait 0 0).futexStep
      ((LifeOp.dispatch 0).futexStep ⟨irqExample, fun _ => none⟩)).waits q = some a → q = 1 := by
    intro q a hq
    by_contra hne
    change (if q = 1 then _ else if _ then (if _ then none else none) else none) = some a at hq
    rw [if_neg hne, ite_self, ite_self] at hq
    cases hq
  refine futex_wakes_right ⟨fun _ => rfl, fun _ => rfl⟩ _
    ⟨nofun, ⟨nofun, fun _ _ _ => ite_self _⟩, fun q a hq => .inl ?_, ⟨fun _ => ⟨by decide, fun me hme q hq => ?_⟩, nofun⟩,
      trivial⟩
  · cases hone q a hq
    decide
  · have hw : q = 1 := by
      change (if _ then ((futex 0 0x1000 0x100000000 futexWait 0 0).futexStep
        ((LifeOp.dispatch 0).futexStep ⟨irqExample, fun _ => none⟩)).waits q else none) = some _ at hq
      split at hq
      · exact hone q _ hq
      · cases hq
    have h2 : me = 2 := (caller_eq hme).1
    rw [hw, h2]
    rfl

/-- In two address spaces it is the same word to the kernel. -/
theorem futex_wakes_stranger : ∃ x, FutexStart x ∧ ¬Along runFutex LifeOp.WakesRight futexExampleRun x := by
  refine ⟨⟨.start [(1, {}), (2, { space := 1 })], fun _ => none⟩, ⟨fun _ => rfl, fun _ => rfl⟩, fun h => ?_⟩
  obtain ⟨woken, -, hin, hlen, hq, -⟩ := h.2.2.2.1 rfl (by decide) 2 (by decide)
  have hlen' : woken.length = 0 := hlen
  rw [List.length_eq_zero_iff] at hlen'
  subst hlen'
  revert hq
  decide

end OpenV.Sched
