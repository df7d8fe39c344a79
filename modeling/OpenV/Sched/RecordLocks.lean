import OpenV.Sched.Phases
import OpenV.Sched.Sleep
import OpenV.Sched.Zombies

/- Record locks (`syscall/ipc.rs`): who holds which bytes of a file. The table keeps a
   list of ranges per file, edited by `try_acquire` and `release_range`; waiting
   requests are granted by the same `try_acquire`. What a list means is said byte by
   byte (`Holds`). No two processes ever hold incompatible locks on a byte, and
   `F_GETLK` sees what `F_SETLK` would run into (`locks_exclude`). The edits drop every
   range of the caller that they touch as a whole, so that they do what they should,
   byte by byte, exactly when no such range reaches over the requested one
   (`lock_edit_exact_iff`). -/
namespace OpenV.Sched

open Function List

/-- `F_RDLCK` -/
def readLock : Int := 0

/-- `F_WRLCK` -/
def writeLock : Int := 1

/-- `struct flock` -/
structure Flock where
  type : Int
  whence : Int := 0
  start : Int
  len : Int
  pid : Pid := 0
  deriving DecidableEq, Repr

namespace Os

/-- `F_GETLK`, once the handle is known to be a file: the first lock in the way is written over the request. -/
def getLock (me : Pid) (file : Nat) (fl : Flock) (s : Os) : Flock :=
  let range := resolveRange fl.start fl.len
  match (s.fileLocks file).find? (FileLock.conflicts ⟨me, fl.type, range.1, range.2⟩) with
  | some b =>
    { type := b.type, start := b.start, len := if b.stop = i64Max then 0 else b.stop - b.start, pid := b.pid }
  | none => { fl with type := unlock }

/-- `release_fd_locks`, of a handle that is a file. -/
def releaseFdLocks (h : Nat) (file : Nat) (s : Os) : Os :=
  (s.releaseRange file (s.current h) 0 i64Max).setA0 (s.current h) 0

end Os

inductive LockOp where
  | dispatch (h : Nat)
  | preempt (h pc : Nat)
  /-- `F_SETLK` and `F_SETLKW` -/
  | setLock (h pc : Nat) (wait : Bool) (file : Nat) (type start len : Int)
  | close (h pc file : Nat)
  /-- a signal other than SIGKILL -/
  | signal (sig : Nat) (pid : Pid)
  | exit (dropped : List Pid) (pid : Pid) (status : Int)

namespace LockOp

def step (op : LockOp) (s : Os) : Os :=
  match op with
  | dispatch h => s.dispatch h
  | preempt h pc => s.preempt h pc
  | setLock h pc wait file type start len => s.syscall h pc .lockWait (Os.setLock h wait file type start len)
  | close h pc file => s.syscall h pc .other (Os.releaseFdLocks h file)
  | signal sig pid => s.post sig pid
  | exit dropped pid status => s.exit dropped pid status

def run (op : LockOp) : Cmd Os Unit := fun s => (.ok (), op.step s)

/-- The lock asked for is a read lock, a write lock or none. -/
def Typed : LockOp → Prop
  | setLock _ _ _ _ type _ _ => type = readLock ∨ type = writeLock ∨ type = Os.unlock
  | _ => True

end LockOp

/-! ## Bytes -/

def FileLock.covers (e : FileLock) (x : Int) : Prop := e.start ≤ x ∧ x < e.stop

open FileLock

instance (e : FileLock) (x : Int) : Decidable (e.covers x) := inferInstanceAs (Decidable (_ ∧ _))

/-- Ranges that share a byte overlap. -/
theorem FileLock.overlaps_of_covers {e e' : FileLock} {x : Int} (h : e.covers x) (h' : e'.covers x) :
    e.overlaps e' = true := by
  unfold covers at h h'
  unfold overlaps
  rw [Bool.and_eq_true, decide_eq_true_iff, decide_eq_true_iff]
  omega

/-- No two processes hold locks that share a byte, unless both are read locks. -/
def Exclude (held : List FileLock) : Prop :=
  ∀ e ∈ held, ∀ e' ∈ held, e.pid ≠ e'.pid → ∀ x, e.covers x → e'.covers x → e.type = readLock ∧ e'.type = readLock

/-- All are read or write locks. -/
def AllTyped (held : List FileLock) : Prop := ∀ e ∈ held, e.type = readLock ∨ e.type = writeLock

/-- Ranges of one process share no byte. -/
def OwnApart (held : List FileLock) : Prop :=
  ∀ e ∈ held, ∀ e' ∈ held, e.pid = e'.pid → e ≠ e' → ∀ x, e.covers x → ¬e'.covers x

section Lists
variable {held : List FileLock} {req : FileLock}

theorem ownApart_singleton : OwnApart [req] := by
  intro e he e' he' _ hne
  rw [mem_singleton.mp he, mem_singleton.mp he'] at hne
  exact absurd rfl hne

variable {e : FileLock} {waiting : List FileLock}

theorem mem_acquire : e ∈ acquire held req ↔ (e ∈ held ∧ (e.pid ≠ req.pid ∨ req.overlaps e = false)) ∨ e = req := by
  unfold acquire
  simp

/-- Who does not conflict may share a byte only with a read lock, to read. -/
theorem reads_of_not_conflicts (hc : req.conflicts e = false) (hp : e.pid ≠ req.pid)
    (ht : req.type = readLock ∨ req.type = writeLock) (he : e.type = readLock ∨ e.type = writeLock) {x : Int}
    (hx : req.covers x) (hx' : e.covers x) : req.type = readLock ∧ e.type = readLock := by
  have ho := overlaps_of_covers hx hx'
  unfold conflicts at hc
  unfold readLock writeLock at *
  rcases ht with ht | ht <;> rcases he with he | he <;> simp_all

theorem Exclude.acquire (h : Exclude held) (hty : AllTyped held) (hc : held.any req.conflicts = false)
    (ht : req.type = readLock ∨ req.type = writeLock) : Exclude (acquire held req) := by
  have hnone : ∀ e ∈ held, req.conflicts e = false := fun e he => by
    simpa using any_eq_false.mp hc e he
  intro e he e' he' hp x hx hx'
  rcases mem_acquire.mp he with ⟨hold, -⟩ | rfl
  · rcases mem_acquire.mp he' with ⟨hold', -⟩ | rfl
    · exact h e hold e' hold' hp x hx hx'
    · exact (reads_of_not_conflicts (hnone e hold) hp ht (hty e hold) hx' hx).symm
  · rcases mem_acquire.mp he' with ⟨hold', -⟩ | rfl
    · exact reads_of_not_conflicts (hnone e' hold') hp.symm ht (hty e' hold') hx hx'
    · exact absurd rfl hp

theorem AllTyped.acquire (hty : AllTyped held) (ht : req.type = readLock ∨ req.type = writeLock) :
    AllTyped (acquire held req) := by
  intro e he
  rcases mem_acquire.mp he with ⟨he, -⟩ | rfl
  · exact hty e he
  · exact ht

theorem OwnApart.acquire (h : OwnApart held) : OwnApart (acquire held req) := by
  intro e he e' he' hp hne x hx hx'
  rcases mem_acquire.mp he with ⟨he, ho⟩ | rfl
  · rcases mem_acquire.mp he' with ⟨he', -⟩ | rfl
    · exact h e he e' he' hp hne x hx hx'
    · rw [overlaps_of_covers hx' hx] at ho
      rcases ho with ho | ho
      · exact ho hp
      · cases ho
  · rcases mem_acquire.mp he' with ⟨he', ho⟩ | rfl
    · rw [overlaps_of_covers hx hx'] at ho
      rcases ho with ho | ho
      · exact ho hp.symm
      · cases ho
    · exact hne rfl

/-- What holds of the locks of one file: those held and those waited for. -/
structure LockInv (held waiting : List FileLock) : Prop where
  exclude : Exclude held
  typed : AllTyped held
  apart : OwnApart held
  asked : AllTyped waiting

theorem LockInv.filter (h : LockInv held waiting) (keep : FileLock → Bool) :
    LockInv (held.filter keep) waiting where
  exclude e he e' he' := h.exclude e (mem_of_mem_filter he) e' (mem_of_mem_filter he')
  typed e he := h.typed e (mem_of_mem_filter he)
  apart e he e' he' := h.apart e (mem_of_mem_filter he) e' (mem_of_mem_filter he')
  asked := h.asked

/-- The loop of `wake_lock_waiters`. -/
theorem LockInv.grants (h : LockInv held waiting) : LockInv (grants held waiting).1 (grants held waiting).2.2 := by
  induction waiting generalizing held with
  | nil => exact h
  | cons w ws ih =>
    obtain ⟨hex, hty, hap, has⟩ := h
    have hw : w.type = readLock ∨ w.type = writeLock := has w (.head _)
    have hws : AllTyped ws := fun e he => has e (.tail _ he)
    unfold OpenV.Sched.grants
    by_cases hc : held.any w.conflicts = true
    · rw [if_pos hc]
      obtain ⟨h1, h2, h3, h4⟩ := ih ⟨hex, hty, hap, hws⟩
      refine ⟨h1, h2, h3, fun e he => ?_⟩
      rcases mem_cons.mp he with rfl | he
      · exact hw
      · exact h4 e he
    · rw [if_neg hc]
      exact ih ⟨hex.acquire hty (Bool.eq_false_iff.mpr hc) hw, hty.acquire hw, hap.acquire, hws⟩

end Lists

/-! ## The tables -/

namespace Os
variable {s : Os} {file : Nat}

def LocksFine (s : Os) : Prop := ∀ file, LockInv (s.fileLocks file) (s.lockWaiters file)

/-- The locks of one file are edited. -/
theorem each_edit {P : List FileLock → List FileLock → Prop} {s' : Os} {held waiting : List FileLock}
    (h1 : s'.fileLocks = update s.fileLocks file held)
    (h2 : s'.lockWaiters = update s.lockWaiters file waiting) (h : P held waiting)
    (hs : ∀ file', file' ≠ file → P (s.fileLocks file') (s.lockWaiters file')) (file' : Nat) :
    P (s'.fileLocks file') (s'.lockWaiters file') := by
  rw [h1, h2]
  by_cases e : file' = file
  · rw [e, update_self, update_self]
    exact h
  · rw [update_of_ne e, update_of_ne e]
    exact hs file' e

theorem lockTables_dispatch (h : Nat) (s : Os) : (s.dispatch h).lockTables = s.lockTables := by
  unfold dispatch
  split
  · split
    · rfl
    · dsimp only
      split
      · rfl
      · split <;> rfl
  · rfl

theorem lockTables_preempt (h pc : Nat) (s : Os) : (s.preempt h pc).lockTables = s.lockTables := by
  unfold preempt
  split <;> rfl

section
variable (hs : s.LocksFine)
include hs

theorem LocksFine.congr {s' : Os} (h : s'.lockTables = s.lockTables) : s'.LocksFine := by
  have h1 : s'.fileLocks = s.fileLocks := congrArg Prod.fst h
  have h2 : s'.lockWaiters = s.lockWaiters := congrArg (fun x => x.2.1) h
  intro file
  rw [h1, h2]
  exact hs file

theorem LocksFine.edit {s' : Os} {held waiting : List FileLock} (h1 : s'.fileLocks = update s.fileLocks file held)
    (h2 : s'.lockWaiters = update s.lockWaiters file waiting) (h : LockInv held waiting) : s'.LocksFine :=
  each_edit h1 h2 h fun _ _ => hs _

theorem LocksFine.wakeLockWaiters (file : Nat) : (s.wakeLockWaiters file).LocksFine := by
  have ht := lockTables_wakeLockWaiters s file
  exact hs.edit (congrArg Prod.fst ht) (congrArg (fun x => x.2.1) ht) (hs file).grants

theorem LocksFine.releaseRange (file : Nat) (pid : Pid) (start stop : Int) :
    (s.releaseRange file pid start stop).LocksFine := by
  refine (hs.edit rfl ?_ ((hs file).filter _)).wakeLockWaiters file
  exact (update_eq_self _ _).symm

theorem LocksFine.releaseAllLocks (pid : Pid) : (s.releaseAllLocks pid).LocksFine := by
  have hall : ∀ (files : List Nat) (s : Os), s.LocksFine → (files.foldl (fun s file => s.wakeLockWaiters file) s).LocksFine := by
    intro files
    induction files with
    | nil => exact fun _ hs => hs
    | cons file files ih => exact fun s hs => ih _ (hs.wakeLockWaiters file)
  exact hall _ _ fun file => (hs file).filter _

theorem LocksFine.exit (dropped : List Pid) (pid : Pid) (status : Int) : (s.exit dropped pid status).LocksFine := by
  unfold Os.exit
  split
  · exact hs
  · rename_i p _
    have hhead : (s.exitHead dropped pid status p).LocksFine := hs.congr (lockTables_exitHead s)
    exact (hhead.releaseAllLocks pid).congr (outside_lockTables.milds (exitTail_milds pid status p _))

theorem LocksFine.setLock (h : Nat) (wait : Bool) (file : Nat) {type : Int} (start len : Int)
    (ht : type = readLock ∨ type = writeLock ∨ type = unlock) : (s.setLock h wait file type start len).LocksFine := by
  unfold Os.setLock
  dsimp only
  split
  · exact LocksFine.congr (hs.releaseRange file _ _ _) rfl
  · have ht : type = readLock ∨ type = writeLock := by tauto
    obtain ⟨h1, h2, h3, h4⟩ := hs file
    split
    · rename_i hc
      refine (hs.edit rfl ?_ ⟨h1.acquire h2 hc ht, h2.acquire ht, h3.acquire, h4⟩).congr rfl
      exact (update_eq_self _ _).symm
    · split
      · exact hs.congr rfl
      · refine LocksFine.congr (hs.edit ?_ rfl ⟨h1, h2, h3, fun e he => ?_⟩) rfl
        · exact (update_eq_self _ _).symm
        · rcases mem_append.mp he with he | he
          · exact h4 e he
          · rw [mem_singleton.mp he]
            exact ht

theorem LocksFine.syscall {h pc : Nat} {call : Call} {body : Os → Os}
    (hbody : ∀ s : Os, s.LocksFine → (body s).LocksFine) : (s.syscall h pc call body).LocksFine := by
  unfold Os.syscall
  cases s.caller h pc call with
  | none => exact hs
  | some me => exact hbody _ (hs.congr rfl)

end

end Os

theorem LockOp.step_fine {s : Os} (hs : s.LocksFine) (op : LockOp) (ht : op.Typed) : (op.step s).LocksFine := by
  cases op with
  | dispatch h => exact hs.congr (Os.lockTables_dispatch h s)
  | preempt h pc => exact hs.congr (Os.lockTables_preempt h pc s)
  | setLock h pc wait file type start len => exact hs.syscall fun s hs => hs.setLock h wait file start len ht
  | close h pc file => exact hs.syscall fun s hs => Os.LocksFine.congr (hs.releaseRange file _ _ _) rfl
  | signal sig pid => exact hs.congr (Os.outside_lockTables.post sig pid s)
  | exit dropped pid status => exact hs.exit dropped pid status

/-! ## Exclusion, and what `F_GETLK` says -/

namespace Os

/-- No two processes hold locks on a file that share a byte, unless both are read locks. -/
def LocksExclude (s : Os) : Prop := ∀ file, Exclude (s.fileLocks file)

/-- `F_SETLK` by the process on hart `h` says that the lock cannot be had. -/
def SetLockFails (h file : Nat) (fl : Flock) (s : Os) : Prop :=
  ((s.setLock h false file fl.type fl.start fl.len).proc (s.current h)).map Proc.a0 = some EAGAIN

/-- `F_GETLK` reports a conflict exactly when `F_SETLK` would fail. -/
def GetLockAgrees (s : Os) : Prop :=
  ∀ h p file fl, s.proc (s.current h) = some p → fl.type = readLock ∨ fl.type = writeLock →
    ((s.getLock (s.current h) file fl).type ≠ unlock ↔ s.SetLockFails h file fl)

theorem setLockFails_iff {s : Os} {h file : Nat} {fl : Flock} {p : Proc} (hp : s.proc (s.current h) = some p)
    (ht : fl.type ≠ unlock) : s.SetLockFails h file fl ↔
      (s.fileLocks file).any (conflicts ⟨s.current h, fl.type, (resolveRange fl.start fl.len).1,
        (resolveRange fl.start fl.len).2⟩) = true := by
  unfold SetLockFails setLock
  rw [if_neg ht]
  split
  · rename_i hc
    rw [hc, setA0, proc_setProc_self]
    change Option.map Proc.a0 ((s.proc (s.current h)).map _) = _ ↔ _
    rw [hp]
    have hne : some 0 ≠ some EAGAIN := by decide
    exact ⟨fun e => absurd e hne, nofun⟩
  · rename_i hc
    rw [if_pos rfl, setA0, proc_setProc_self, hp]
    exact ⟨fun _ => Bool.of_not_eq_false hc, fun _ => rfl⟩

theorem LocksFine.getLockAgrees {s : Os} (hs : s.LocksFine) : s.GetLockAgrees := by
  intro h p file fl hp ht
  have hne : fl.type ≠ unlock := by
    rcases ht with ht | ht <;> rw [ht] <;> decide
  rw [setLockFails_iff hp hne]
  unfold getLock
  dsimp only
  split
  · rename_i b hb
    have hty := (hs file).typed b (mem_of_find?_eq_some hb)
    refine ⟨fun _ => any_eq_true.mpr ⟨b, mem_of_find?_eq_some hb, find?_some hb⟩, fun _ => ?_⟩
    change b.type ≠ unlock
    rcases hty with ht | ht <;> rw [ht] <;> decide
  · rename_i hb
    refine ⟨absurd rfl, fun e => ?_⟩
    obtain ⟨b, hmem, hc⟩ := any_eq_true.mp e
    exact absurd hc (find?_eq_none.mp hb b hmem)

end Os

/-- From a state without locks, whatever is locked, unlocked, closed and whoever exits: no two processes ever hold
incompatible locks on a byte of a file, and `F_GETLK` reports a conflict exactly when `F_SETLK` would fail. -/
theorem locks_exclude {s : Os} (hs : ∀ file, s.fileLocks file = [] ∧ s.lockWaiters file = []) (ops : List LockOp)
    (ht : ∀ op ∈ ops, op.Typed) : Along LockOp.run (fun _ _ s' => s'.LocksExclude ∧ s'.GetLockAgrees) ops s := by
  have hfine : s.LocksFine := fun file => by
    rw [(hs file).1, (hs file).2]
    exact ⟨nofun, nofun, nofun, nofun⟩
  refine Along.of_inv Os.LocksFine (fun op s hs ht => ?_) hfine (along_of_forall ht s)
  have hs' := op.step_fine hs ht
  exact Cmd.wp_of_ok rfl ⟨hs', fun file => (hs' file).exclude, hs'.getLockAgrees⟩

/-- Two processes read a part of a file, and the second one waits to write it until the first has closed it. -/
theorem locks_exclude_upgrade : Along LockOp.run (fun _ _ s' => s'.LocksExclude ∧ s'.GetLockAgrees)
    [.dispatch 0, .dispatch 1, .setLock 0 0x1000 false 7 readLock 0 10, .setLock 1 0x1000 false 7 readLock 5 0,
      .setLock 1 0x2000 true 7 writeLock 0 8, .close 0 0x2000 7] irqExample := by
  refine locks_exclude (fun _ => ⟨rfl, rfl⟩) _ fun op hop => ?_
  simp only [List.mem_cons, List.not_mem_nil, or_false] at hop
  rcases hop with rfl | rfl | rfl | rfl | rfl | rfl
  · trivial
  · trivial
  · exact .inl rfl
  · exact .inl rfl
  · exact .inr (.inl rfl)
  · trivial

/-! ## Byte by byte -/

/-- The process holds a lock of this type on the byte. -/
def Holds (held : List FileLock) (q : Pid) (type x : Int) : Prop :=
  ∃ e ∈ held, e.pid = q ∧ e.type = type ∧ e.covers x

/-- The request changes what its process holds on the bytes of its range, and nothing else. -/
def ByteExact (req : FileLock) (held held' : List FileLock) : Prop :=
  ∀ q type x, Holds held' q type x ↔
    if q = req.pid ∧ req.covers x then req.type ≠ Os.unlock ∧ type = req.type else Holds held q type x

/-- What a successful `F_SETLK` or `F_SETLKW` does to the locks of its file, before anyone who waits is looked at. -/
def lockEdit (req : FileLock) (held : List FileLock) : List FileLock :=
  if req.type = Os.unlock then held.filter fun e => e.pid != req.pid || !req.overlaps e else acquire held req

/-- No lock of the caller that is touched reaches over the requested range. -/
def Within (req : FileLock) (held : List FileLock) : Prop :=
  ∀ e ∈ held, e.pid = req.pid → req.overlaps e = true → e.start < e.stop → req.start ≤ e.start ∧ e.stop ≤ req.stop

section Edit
variable {req : FileLock} {held : List FileLock}

theorem mem_lockEdit {e : FileLock} : e ∈ lockEdit req held ↔
    (e ∈ held ∧ (e.pid ≠ req.pid ∨ req.overlaps e = false)) ∨ (req.type ≠ Os.unlock ∧ e = req) := by
  unfold lockEdit
  split
  · rename_i ht
    simp [ht]
  · rename_i ht
    rw [mem_acquire]
    simp [ht]

/-- On the bytes of the range the edit does what it should, and so it does for all other processes. -/
theorem holds_lockEdit_inside {q : Pid} {type x : Int} (h : q ≠ req.pid ∨ req.covers x) :
    Holds (lockEdit req held) q type x ↔
      if q = req.pid ∧ req.covers x then req.type ≠ Os.unlock ∧ type = req.type else Holds held q type x := by
  constructor
  · rintro ⟨e, he, rfl, rfl, hx⟩
    rcases mem_lockEdit.mp he with ⟨hold, hkeep⟩ | ⟨hun, rfl⟩
    · split
      · rename_i hin
        rcases hkeep with hne | ho
        · exact absurd hin.1 hne
        · rw [overlaps_of_covers hin.2 hx] at ho
          cases ho
      · exact ⟨e, hold, rfl, rfl, hx⟩
    · rw [if_pos ⟨rfl, hx⟩]
      exact ⟨hun, rfl⟩
  · intro hspec
    split at hspec
    · rename_i hin
      exact ⟨req, mem_lockEdit.mpr (.inr ⟨hspec.1, rfl⟩), hin.1.symm, hspec.2.symm, hin.2⟩
    · rename_i hout
      obtain ⟨e, he, rfl, rfl, hx⟩ := hspec
      refine ⟨e, mem_lockEdit.mpr (.inl ⟨he, .inl fun e' => ?_⟩), rfl, rfl, hx⟩
      rcases h with h | h
      · exact h e'
      · exact hout ⟨e', h⟩

/-- On the other bytes of the caller: what is not touched stays. -/
theorem holds_lockEdit_outside {type x : Int} (h : ¬req.covers x) : Holds (lockEdit req held) req.pid type x ↔
    ∃ e ∈ held, e.pid = req.pid ∧ e.type = type ∧ e.covers x ∧ req.overlaps e = false := by
  constructor
  · rintro ⟨e, he, hp, rfl, hx⟩
    rcases mem_lockEdit.mp he with ⟨hold, hne | ho⟩ | ⟨-, rfl⟩
    · exact absurd hp hne
    · exact ⟨e, hold, hp, rfl, hx, ho⟩
    · exact absurd hx h
  · rintro ⟨e, he, hp, rfl, hx, ho⟩
    exact ⟨e, mem_lockEdit.mpr (.inl ⟨he, .inr ho⟩), hp, rfl, hx⟩

/-- A range that reaches over another one has a byte outside of it. -/
theorem exists_byte_outside {e : FileLock} (hne : e.start < e.stop) (hout : ¬(req.start ≤ e.start ∧ e.stop ≤ req.stop)) :
    ∃ x, e.covers x ∧ ¬req.covers x := by
  unfold covers
  by_cases hs : req.start ≤ e.start
  · exact ⟨e.stop - 1, by omega, by omega⟩
  · exact ⟨e.start, by omega, by omega⟩

theorem byteExact_iff (hd : OwnApart held) : ByteExact req held (lockEdit req held) ↔ Within req held := by
  constructor
  · intro hex e he hp ho hne
    by_contra hout
    obtain ⟨x, hx, hxr⟩ := exists_byte_outside hne hout
    have hheld : Holds held req.pid e.type x := ⟨e, he, hp, rfl, hx⟩
    have hkept := (hex req.pid e.type x).mpr (by rw [if_neg fun h => hxr h.2]; exact hheld)
    obtain ⟨e', he', hp', -, hx', ho'⟩ := (holds_lockEdit_outside hxr).mp hkept
    -- the caller has only one lock on the byte, and that one was touched
    have hsame : e = e' := by
      by_contra hdiff
      exact hd e he e' he' (hp.trans hp'.symm) hdiff x hx hx'
    rw [← hsame, ho] at ho'
    cases ho'
  · intro hin q type x
    by_cases hside : q ≠ req.pid ∨ req.covers x
    · exact holds_lockEdit_inside hside
    · obtain ⟨rfl, hxr⟩ : q = req.pid ∧ ¬req.covers x := by tauto
      rw [if_neg fun h => hxr h.2, holds_lockEdit_outside hxr]
      constructor
      · rintro ⟨e, he, hp, ht, hx, -⟩
        exact ⟨e, he, hp, ht, hx⟩
      · rintro ⟨e, he, hp, ht, hx⟩
        refine ⟨e, he, hp, ht, hx, ?_⟩
        cases ho : req.overlaps e with
        | false => rfl
        | true =>
          unfold covers at hx hxr
          have := hin e he hp ho (by omega)
          omega

end Edit

/-! ### The calls -/

namespace Os

/-- The request that `F_SETLK` makes. -/
def lockRequest (h : Nat) (type start len : Int) (s : Os) : FileLock :=
  ⟨s.current h, type, (resolveRange start len).1, (resolveRange start len).2⟩

/-- `F_SETLK` or `F_SETLKW` gets what it asks for at once. -/
def SetLockSucceeds (h file : Nat) (type start len : Int) (s : Os) : Prop :=
  type = unlock ∨ (s.fileLocks file).any (s.lockRequest h type start len).conflicts = false

/-- The locks of the file are edited for the caller. -/
def editLocks (h file : Nat) (type start len : Int) (s : Os) : Os :=
  { s with fileLocks :=
      update s.fileLocks file (lockEdit (s.lockRequest h type start len) (s.fileLocks file)) }

end Os

/-- A successful call edits the locks of its file for the caller, and after an unlock `wake_lock_waiters` lets those
who wait have theirs. The edit changes the caller's locks on exactly the bytes of the range, and nobody else's, if and
only if no lock of the caller that overlaps the range reaches over it. -/
theorem lock_edit_exact_iff {s : Os} {h file : Nat} (wait : Bool) {type start len : Int}
    (hok : s.SetLockSucceeds h file type start len) (hd : OwnApart (s.fileLocks file)) :
    s.setLock h wait file type start len =
      (if type = Os.unlock then (s.editLocks h file type start len).wakeLockWaiters file
        else s.editLocks h file type start len).setA0 (s.current h) 0 ∧
    (ByteExact (s.lockRequest h type start len) (s.fileLocks file) ((s.editLocks h file type start len).fileLocks file) ↔
      Within (s.lockRequest h type start len) (s.fileLocks file)) := by
  constructor
  · have hrequest : (s.lockRequest h type start len).type = type := rfl
    unfold Os.setLock
    by_cases ht : type = Os.unlock
    · rw [if_pos ht, if_pos ht, Os.editLocks, lockEdit, hrequest, if_pos ht]
      rfl
    · rw [if_neg ht, if_neg ht, Os.editLocks, lockEdit, hrequest, if_neg ht, if_pos]
      · rfl
      · exact hok.resolve_left ht
  · have hedit : (s.editLocks h file type start len).fileLocks file =
        lockEdit (s.lockRequest h type start len) (s.fileLocks file) := update_self ..
    rw [hedit]
    exact byteExact_iff hd

/-- The first process, with a write lock on the bytes 0 to 9 of a file. -/
def lockExample : Os := (LockOp.setLock 0 0x1000 false 7 writeLock 0 10).step ((LockOp.dispatch 0).step irqExample)

/-- It makes bytes 0 to 19 read-only for itself. -/
theorem lock_edit_exact_wider : lockExample.SetLockSucceeds 0 7 readLock 0 20 ∧
      ByteExact (lockExample.lockRequest 0 readLock 0 20) (lockExample.fileLocks 7)
        ((lockExample.editLocks 0 7 readLock 0 20).fileLocks 7) := by
  have hheld : lockExample.fileLocks 7 = [⟨1, writeLock, 0, 10⟩] := by decide
  have hok : lockExample.SetLockSucceeds 0 7 readLock 0 20 := .inr (by decide)
  refine ⟨hok, ((lock_edit_exact_iff false hok ?_).2).mpr ?_⟩
  · exact ownApart_singleton
  · unfold Within
    decide

/-- It unlocks the bytes 4 and 5, and loses all ten. -/
theorem unlock_loses_bytes : ∃ (s : Os) (h file : Nat) (type start len : Int), s.SetLockSucceeds h file type start len ∧
    OwnApart (s.fileLocks file) ∧
    ¬ByteExact (s.lockRequest h type start len) (s.fileLocks file) ((s.editLocks h file type start len).fileLocks file) := by
  have hheld : lockExample.fileLocks 7 = [⟨1, writeLock, 0, 10⟩] := by decide
  refine ⟨lockExample, 0, 7, Os.unlock, 4, 2, .inl rfl, ?_, fun hex => ?_⟩
  · exact ownApart_singleton
  · have hkept := (hex 1 writeLock 0).mpr (by
      exact ⟨_, mem_singleton_self _, rfl, rfl, by decide⟩)
    obtain ⟨e, he, -⟩ := hkept
    have hnone : (lockExample.editLocks 0 7 Os.unlock 4 2).fileLocks 7 = [] := by decide
    cases he

end OpenV.Sched
