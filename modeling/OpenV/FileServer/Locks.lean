import OpenV.FileServer.Memory
import OpenV.Sched.RecordLocks

/- Record locks on files of the file server. The kernel takes the number that the server
   has given a descriptor for the file (`file_lock_id`), and the server gives every open
   the next number. So the locks of two processes that open one path are kept under two
   numbers, and neither is in the way of the other. -/
namespace OpenV.FileServer

open Sched Function

/-- `OpenTable::open`, with the descriptor that it returns. -/
def OpenTable.opened (t : OpenTable) (path : String) (nsId : BitVec 32) : BitVec 32 × OpenTable :=
  (t.nextFd, t.openFile path nsId)

/-- The requests that change which descriptors there are. -/
inductive TableOp where
  | openFile (path : String) (nsId : BitVec 32)
  | dup (fd : BitVec 32)
  | close (fd : BitVec 32)

/-- `OpenTable::open`, `OpenTable::dup` and `OpenTable::close`. -/
def TableOp.run (t : OpenTable) : TableOp → OpenTable
  | openFile path nsId => (t.opened path nsId).2
  | dup fd =>
    match t.files fd with
    | some f => ⟨update t.files t.nextFd (some f), t.nextFd + 1#32⟩
    | none => t
  | close fd => { t with files := update t.files fd none }

/-- The descriptors of a path that is opened and, after `ops`, opened again. -/
def openTwice (t : OpenTable) (path : String) (ns ns' : BitVec 32) (ops : List TableOp) : BitVec 32 × BitVec 32 :=
  let first := t.opened path ns
  (first.1, ((ops.foldl TableOp.run first.2).opened path ns').1)

/-- The request of the process on hart `h`. -/
def lockOf (h : Nat) (fl : Flock) (s : Os) : FileLock := s.lockRequest h fl.type fl.start fl.len

/-- `F_SETLK` on a descriptor of the server. -/
def setLk (h : Nat) (fd : BitVec 32) (fl : Flock) (s : Os) : Os := s.setLock h false fd.toNat fl.type fl.start fl.len

section
variable {s : Os} {h h' : Nat} {p p' : Proc} {fl fl' : Flock} {fd fd' : BitVec 32}

/-- A lock that was granted is in the way of those that conflict with it under the same number only. -/
theorem setLk_fails_iff (hp : s.proc (s.current h) = some p) (hp' : s.proc (s.current h') = some p')
    (hl : fl.type ≠ Os.unlock) (hc : (lockOf h' fl' s).conflicts (lockOf h fl s) = true)
    (hok : ¬s.SetLockFails h fd.toNat fl) :
    (setLk h fd fl s).SetLockFails h' fd'.toNat fl' ↔ fd = fd' ∨ s.SetLockFails h' fd'.toNat fl' := by
  have hl' : fl'.type ≠ Os.unlock := fun e => by
    simp [FileLock.conflicts, lockOf, Os.lockRequest, e, Os.unlock] at hc
  rw [Os.setLockFails_iff hp hl, Bool.not_eq_true] at hok
  have hset : setLk h fd fl s = Os.setA0 (s.current h) 0 { s with
      fileLocks := update s.fileLocks fd.toNat (acquire (s.fileLocks fd.toNat) (lockOf h fl s)) } := by
    unfold setLk Os.setLock
    dsimp only
    rw [if_neg hl, if_pos hok]
    rfl
  obtain ⟨p'', hp''⟩ : ∃ p'', (setLk h fd fl s).proc ((setLk h fd fl s).current h') = some p'' := by
    rw [hset]
    change ∃ p'', (s.setProc (s.current h) _).proc (s.current h') = some p''
    rw [Os.proc_setProc, hp']
    split
    · exact ⟨_, rfl⟩
    · exact ⟨_, rfl⟩
  rw [Os.setLockFails_iff hp'' hl', Os.setLockFails_iff hp' hl', hset]
  change (update s.fileLocks fd.toNat _ fd'.toNat).any (lockOf h' fl' s).conflicts = true ↔
    _ ∨ (s.fileLocks fd'.toNat).any (lockOf h' fl' s).conflicts = true
  by_cases e : fd = fd'
  · rw [e, update_self]
    exact iff_of_true (List.any_eq_true.mpr ⟨_, mem_acquire.mpr (.inr rfl), hc⟩) (.inl rfl)
  · rw [update_of_ne fun e' => e (BitVec.eq_of_toNat_eq e'.symm)]
    exact (or_iff_right e).symm

end

/-- Two processes run, and the second one has a write lock on the file with the number 2. -/
def lockers : Os := setLk 1 2#32 ⟨writeLock, 0, 0, 0, 0⟩ ((irqExample.dispatch 0).dispatch 1)

end OpenV.FileServer
