import OpenV.Kernel.State
import OpenV.Lib.Run
import OpenV.Lib.Table

/- Capabilities and user ids (`syscall/proc.rs`, `syscall/pm.rs`, `syscall/user.rs`,
   `Process::new`): everything that creates a process, removes one or writes its
   capability word or its ids. What the allocator and the loader answer is part of the
   choice of a step (`Outcome`). As long as nobody with CAP_SYS_ADMIN makes a call, a
   step only removes a process, hands a parent's credentials to a new child, adds bits
   that the giver has, or changes ids as `setuid` and `setgid` do (`Change`);
   confinement follows from that. -/
namespace OpenV

/-- What a process may do. -/
structure Cred where
  uid : BitVec 32 := 0
  gid : BitVec 32 := 0
  euid : BitVec 32 := 0
  egid : BitVec 32 := 0
  caps : BitVec 64 := 0
  deriving DecidableEq, Repr

/-- The bit of CAP_PROCESS. -/
def processBit : Nat := 3

/-- The bit of CAP_SYS_ADMIN. -/
def sysAdminBit : Nat := 5

def Cred.has (p : Cred) (bit : Nat) : Bool := p.caps.getLsbD bit

/-- `PROCESS_TABLE` and `NEXT_PID`, which wraps around. -/
structure Creds where
  procs : Table Int Cred
  nextPid : BitVec 32 := 1

/-- How far the making of a process gets. -/
inductive Outcome where
  | done
  /-- no page table or kernel stack -/
  | oom
  /-- what comes after `Process::new` fails, and the process is cleaned up -/
  | failed
  deriving DecidableEq, Repr

namespace Creds

def maxProcesses : Nat := 512

/-- What a child of `ppid` starts with. -/
def inherited (ppid : Int) (s : Creds) : Cred := if ppid = 0 then {} else (s.procs.get ppid).getD {}

/-- `Process::new` -/
def newProcess (ppid : Int) (oom : Bool) (s : Creds) : Option Int × Creds :=
  if maxProcesses ≤ s.procs.keys.length then (none, s)
  else
    let pid := s.nextPid.toInt
    let s' := { s with nextPid := s.nextPid + 1 }
    if oom then (none, s')
    else (some pid, { s' with procs := s'.procs.insert pid (s.inherited ppid) })

/-- `cleanup_process`, and what `waitpid` does with a zombie. -/
def removeProcess (pid : Int) (s : Creds) : Creds := { s with procs := s.procs.remove pid }

/-- A pid as a register holds it. -/
def pidReg (pid : Int) : Nat := (pid % 2 ^ 64).toNat

/-- A process is made as a child of `ppid`; the value returned, `failure` if it does not work out. -/
def create (ppid : Int) (out : Outcome) (failure : Nat) (s : Creds) : Nat × Creds :=
  match s.newProcess ppid (out == .oom) with
  | (none, s') => (failure, s')
  | (some pid, s') => if out = .failed then (failure, s'.removeProcess pid) else (pidReg pid, s')

def sysFork (me : Int) (out : Outcome) : Creds → Nat × Creds := create me out usizeMax

/-- `sys_spawn`; `text` is what the path is read as. -/
def sysSpawn (me : Int) (readable text : Bool) (out : Outcome) (s : Creds) : Nat × Creds :=
  if readable = false then (EFAULT, s) else if text then create me out usizeMax s else (usizeMax, s)

/-- `sys_clone` -/
def sysClone (me : Int) (out : Outcome) (s : Creds) : Nat × Creds :=
  match s.newProcess me (out == .oom) with
  | (none, s') => (ENOMEM, s')
  | (some pid, s') =>
    if (s'.procs.get me).isNone then (ESRCH, s'.removeProcess pid)
    else if out = .failed then (usizeMax, s'.removeProcess pid)
    else (pidReg pid, s')

/-- `sys_clone_process`: the target is the parent of the new process. -/
def sysCloneProcess (me target : Int) (out : Outcome) (s : Creds) : Nat × Creds :=
  if (s.procs.get me).elim false fun p => !p.has processBit then (EPERM, s) else create target out usizeMax s

/-- `caps.store` -/
def storeCaps (pid : Int) (caps : BitVec 64) (s : Creds) : Creds :=
  { s with procs := s.procs.modify pid fun p => { p with caps := caps } }

/-- A call for those with CAP_SYS_ADMIN only. -/
def asAdmin (me : Int) (body : Creds → Nat × Creds) (s : Creds) : Nat × Creds :=
  match s.procs.get me with
  | none => (ESRCH, s)
  | some p => if p.has sysAdminBit then body s else (EPERM, s)

def sysSpawnWithCaps (me : Int) (readable text : Bool) (caps : BitVec 64) (out : Outcome) : Creds → Nat × Creds :=
  asAdmin me fun s =>
    if readable = false then (EFAULT, s)
    else if text = false then (usizeMax, s)
    else
      match s.newProcess me (out == .oom) with
      | (none, s') => (usizeMax, s')
      | (some pid, s') =>
        if out = .failed then (usizeMax, s'.removeProcess pid) else (pidReg pid, s'.storeCaps pid caps)

def sysPrivctl (me target : Int) (caps : BitVec 64) : Creds → Nat × Creds :=
  asAdmin me fun s => if (s.procs.get target).isSome then (0, s.storeCaps target caps) else (ESRCH, s)

/-- `caps.fetch_or` -/
def addCaps (pid : Int) (caps : BitVec 64) (s : Creds) : Creds :=
  { s with procs := s.procs.modify pid fun p => { p with caps := p.caps ||| caps } }

def sysGrantDriverCap (me target : Int) : Creds → Nat × Creds :=
  asAdmin me fun s =>
    if (s.procs.get target).isSome then (0, s.addCaps target capDriver) else (ESRCH, s)

def sysCapGrant (me target : Int) (caps : BitVec 64) (s : Creds) : Nat × Creds :=
  match s.procs.get me with
  | none => (ESRCH, s)
  | some p =>
    if caps &&& ~~~p.caps ≠ 0 then (EPERM, s)
    else if (s.procs.get target).isSome then (0, s.addCaps target caps)
    else (ESRCH, s)

def sysSetuid (me : Int) (arg : Nat) (s : Creds) : Nat × Creds :=
  match s.procs.get me with
  | none => (ESRCH, s)
  | some p =>
    let val := BitVec.ofNat 32 arg
    if p.euid = 0 then (0, { s with procs := s.procs.modify me fun p => { p with uid := val, euid := val } })
    else if val = p.uid then (0, { s with procs := s.procs.modify me fun p => { p with euid := val } })
    else (usizeMax - 1, s)

def sysSetgid (me : Int) (arg : Nat) (s : Creds) : Nat × Creds :=
  match s.procs.get me with
  | none => (ESRCH, s)
  | some p =>
    let val := BitVec.ofNat 32 arg
    if p.euid = 0 then (0, { s with procs := s.procs.modify me fun p => { p with gid := val, egid := val } })
    else if val = p.gid then (0, { s with procs := s.procs.modify me fun p => { p with egid := val } })
    else (usizeMax - 1, s)

end Creds

inductive CredOp where
  | fork (me : Int) (out : Outcome)
  | spawn (me : Int) (readable text : Bool) (out : Outcome)
  | clone (me : Int) (out : Outcome)
  | cloneProcess (me target : Int) (out : Outcome)
  | spawnWithCaps (me : Int) (readable text : Bool) (caps : BitVec 64) (out : Outcome)
  | privctl (me target : Int) (caps : BitVec 64)
  | grantDriverCap (me target : Int)
  | capGrant (me target : Int) (caps : BitVec 64)
  | setuid (me : Int) (arg : Nat)
  | setgid (me : Int) (arg : Nat)
  /-- a zombie is reaped -/
  | reap (pid : Int)

open CredOp

namespace CredOp

def result (op : CredOp) (s : Creds) : Nat × Creds :=
  match op with
  | fork me out => s.sysFork me out
  | spawn me readable text out => s.sysSpawn me readable text out
  | clone me out => s.sysClone me out
  | cloneProcess me target out => s.sysCloneProcess me target out
  | spawnWithCaps me readable text caps out => s.sysSpawnWithCaps me readable text caps out
  | privctl me target caps => s.sysPrivctl me target caps
  | grantDriverCap me target => s.sysGrantDriverCap me target
  | capGrant me target caps => s.sysCapGrant me target caps
  | setuid me arg => s.sysSetuid me arg
  | setgid me arg => s.sysSetgid me arg
  | reap pid => (0, s.removeProcess pid)

def run (op : CredOp) : Cmd Creds Unit := fun s => (.ok (), (op.result s).2)

/-- Who makes the call. -/
def caller : CredOp → Option Int
  | fork me _ => some me
  | spawn me _ _ _ => some me
  | clone me _ => some me
  | cloneProcess me _ _ => some me
  | spawnWithCaps me _ _ _ _ => some me
  | privctl me _ _ => some me
  | grantDriverCap me _ => some me
  | capGrant me _ _ => some me
  | setuid me _ => some me
  | setgid me _ => some me
  | reap _ => none

/-- The parent of the process that the call makes. -/
def parent : CredOp → Option Int
  | fork me _ => some me
  | spawn me _ _ _ => some me
  | clone me _ => some me
  | cloneProcess _ target _ => some target
  | spawnWithCaps me _ _ _ _ => some me
  | _ => none

/-- The giver and the receiver of capabilities. -/
def grant : CredOp → Option (Int × Int)
  | capGrant me target _ => some (me, target)
  | _ => none

/-- The caller does not have CAP_SYS_ADMIN, and the parent of a new process is in the table. -/
def Ordinary (op : CredOp) (s : Creds) : Prop :=
  (∀ me p, op.caller = some me → s.procs.get me = some p → p.has sysAdminBit = false) ∧
    ∀ ppid, op.parent = some ppid → (s.procs.get ppid).isSome = true

/-- The process with this pid was made by the step. -/
def Makes (op : CredOp) (pid : Int) (s : Creds) : Prop := op.parent.isSome = true ∧ pid = s.nextPid.toInt

/-- Each bit that a process has afterwards it had before, or its parent had it when the process was made, or who
granted it to the process had it. -/
def CapsFrom (op : CredOp) (s s' : Creds) : Prop :=
  ∀ q p bit, s'.procs.get q = some p → p.has bit = true →
    (∃ p0, s.procs.get q = some p0 ∧ p0.has bit = true) ∨
    (∃ ppid p0, op.Makes q s ∧ op.parent = some ppid ∧ s.procs.get ppid = some p0 ∧ p0.has bit = true) ∨
    ∃ giver p0, op.grant = some (giver, q) ∧ s.procs.get giver = some p0 ∧ p0.has bit = true

/-- Who is not root does not become root, and neither is a new child of it. -/
def IdsFrom (op : CredOp) (s s' : Creds) : Prop :=
  ∀ q p', s'.procs.get q = some p' →
    (∃ ppid, op.Makes q s ∧ op.parent = some ppid ∧ (ppid ≠ 0 → ∀ p, s.procs.get ppid = some p →
      p'.uid = p.uid ∧ p'.euid = p.euid)) ∨
    ∃ p, s.procs.get q = some p ∧ (p.uid ≠ 0 → p.euid ≠ 0 → p'.uid ≠ 0 ∧ p'.euid ≠ 0)

end CredOp

/-- Somebody has the capability. -/
def Creds.Held (s : Creds) (bit : Nat) : Prop := ∃ q p, s.procs.get q = some p ∧ p.has bit = true

/-! ## What a step can do -/

/-- What becomes of the table when nobody with CAP_SYS_ADMIN makes a call. -/
inductive Change (op : CredOp) (s : Creds) : Table Int Cred → Prop where
  | same : Change op s s.procs
  | remove (pid : Int) : Change op s (s.procs.remove pid)
  | make (ppid : Int) (hp : op.parent = some ppid) : Change op s (s.procs.insert s.nextPid.toInt (s.inherited ppid))
  /-- a process is made and cleaned up -/
  | undo (ppid : Int) : Change op s ((s.procs.insert s.nextPid.toInt (s.inherited ppid)).remove s.nextPid.toInt)
  | grant (giver target : Int) (p : Cred) (caps : BitVec 64) (hg : op.grant = some (giver, target))
      (hp : s.procs.get giver = some p) (hc : caps &&& ~~~p.caps = 0) :
      Change op s (s.procs.modify target fun p => { p with caps := p.caps ||| caps })
  | ids (me : Int) (f : Cred → Cred) (hcaps : ∀ p, (f p).caps = p.caps)
      (hids : ∀ p, s.procs.get me = some p → p.uid ≠ 0 → p.euid ≠ 0 → (f p).uid ≠ 0 ∧ (f p).euid ≠ 0) :
      Change op s (s.procs.modify me f)

section Change
variable {op : CredOp} {s : Creds}
variable {ppid : Int} {p : Cred} {bit : Nat}

/-- `Process::new`: nothing, or a new process, which can be cleaned up again. -/
theorem newProcess_cases (oom : Bool) (hp : op.parent = some ppid) :
    (∃ s', s.newProcess ppid oom = (none, s') ∧ Change op s s'.procs) ∨
      ∃ pid s', s.newProcess ppid oom = (some pid, s') ∧ Change op s s'.procs ∧
        Change op s (s'.removeProcess pid).procs := by
  unfold Creds.newProcess
  split
  · exact .inl ⟨_, rfl, .same⟩
  · split
    · exact .inl ⟨_, rfl, .same⟩
    · exact .inr ⟨_, _, rfl, .make ppid hp, .undo ppid⟩

theorem create_change {out : Outcome} {failure : Nat} (hp : op.parent = some ppid) :
    Change op s (s.create ppid out failure).2.procs := by
  unfold Creds.create
  rcases newProcess_cases (out == .oom) hp with ⟨s', e, hs⟩ | ⟨pid, s', e, hs, hundo⟩ <;> rw [e] <;> dsimp only
  · exact hs
  · split
    · exact hundo
    · exact hs

/-- Nothing comes of the calls that need CAP_SYS_ADMIN. -/
theorem asAdmin_refused {me : Int} {body : Creds → Nat × Creds}
    (h : ∀ p, s.procs.get me = some p → p.has sysAdminBit = false) : (s.asAdmin me body).2 = s := by
  unfold Creds.asAdmin
  split
  · rfl
  · rename_i p hp
    rw [h p hp]
    rfl

theorem CredOp.change (h : op.Ordinary s) : Change op s (op.result s).2.procs := by
  have hadmin : ∀ {me : Int} {body : Creds → Nat × Creds}, op.caller = some me → (s.asAdmin me body).2 = s :=
    fun hc => asAdmin_refused fun p hp => h.1 _ p hc hp
  cases op with
  | fork me out => exact create_change rfl
  | spawn me readable text out =>
    change Change _ s (s.sysSpawn me readable text out).2.procs
    unfold Creds.sysSpawn
    split
    · exact .same
    · split
      · exact create_change rfl
      · exact .same
  | clone me out =>
    change Change _ s (s.sysClone me out).2.procs
    unfold Creds.sysClone
    rcases newProcess_cases (out == .oom) (show (clone me out).parent = some me from rfl) with
      ⟨s', e, hs⟩ | ⟨pid, s', e, hs, hundo⟩ <;> rw [e] <;> dsimp only
    · exact hs
    · split
      · exact hundo
      · split
        · exact hundo
        · exact hs
  | cloneProcess me target out =>
    change Change _ s (s.sysCloneProcess me target out).2.procs
    unfold Creds.sysCloneProcess
    split
    · exact .same
    · exact create_change rfl
  | spawnWithCaps me readable text caps out =>
    change Change _ s (s.sysSpawnWithCaps me readable text caps out).2.procs
    rw [Creds.sysSpawnWithCaps, hadmin rfl]
    exact .same
  | privctl me target caps =>
    change Change _ s (s.sysPrivctl me target caps).2.procs
    rw [Creds.sysPrivctl, hadmin rfl]
    exact .same
  | grantDriverCap me target =>
    change Change _ s (s.sysGrantDriverCap me target).2.procs
    rw [Creds.sysGrantDriverCap, hadmin rfl]
    exact .same
  | capGrant me target caps =>
    change Change _ s (s.sysCapGrant me target caps).2.procs
    unfold Creds.sysCapGrant
    split
    · exact .same
    · rename_i p hp
      split
      · exact .same
      · rename_i hc
        split
        · exact .grant me target p caps rfl hp (not_not.mp hc)
        · exact .same
  | setuid me arg =>
    change Change _ s (s.sysSetuid me arg).2.procs
    unfold Creds.sysSetuid
    split
    · exact .same
    · rename_i p hp
      dsimp only
      split
      · rename_i h0
        refine .ids me _ (fun _ => rfl) fun q hq _ he => ?_
        rw [hp] at hq
        cases hq
        exact absurd h0 he
      · split
        · rename_i hval
          refine .ids me _ (fun _ => rfl) fun q hq hu _ => ?_
          rw [hp] at hq
          cases hq
          exact ⟨hu, by rw [hval]; exact hu⟩
        · exact .same
  | setgid me arg =>
    change Change _ s (s.sysSetgid me arg).2.procs
    unfold Creds.sysSetgid
    split
    · exact .same
    · dsimp only
      split
      · exact .ids me _ (fun _ => rfl) fun _ _ hu he => ⟨hu, he⟩
      · split
        · exact .ids me _ (fun _ => rfl) fun _ _ hu he => ⟨hu, he⟩
        · exact .same
  | reap pid => exact .remove pid

/-- A bit that is given is one that the giver has. -/
theorem given_bit {caps : BitVec 64} (hc : caps &&& ~~~p.caps = 0) (hb : caps.getLsbD bit = true) :
    p.has bit = true := by
  have hlt : bit < 64 := BitVec.lt_of_getLsbD hb
  have h0 : (caps &&& ~~~p.caps).getLsbD bit = false := by rw [hc]; exact BitVec.getLsbD_zero
  rw [BitVec.getLsbD_and, hb] at h0
  simpa [Cred.has, hlt] using h0

theorem inherited_has (hb : (s.inherited ppid).has bit = true) :
    ∃ p0, s.procs.get ppid = some p0 ∧ p0.has bit = true := by
  have hnone : ¬({} : Cred).has bit = true := by simp [Cred.has]
  unfold Creds.inherited at hb
  split at hb
  · exact absurd hb hnone
  · cases hp : s.procs.get ppid with
    | none =>
      rw [hp] at hb
      exact absurd hb hnone
    | some p =>
      rw [hp] at hb
      exact ⟨p, rfl, hb⟩

theorem inherited_ids (h0 : ppid ≠ 0) (hp : s.procs.get ppid = some p) :
    (s.inherited ppid).uid = p.uid ∧ (s.inherited ppid).euid = p.euid := by
  unfold Creds.inherited
  rw [if_neg h0, hp]
  exact ⟨rfl, rfl⟩

variable {t : Table Int Cred}

/-- The credentials of a process come from what it had. -/
def Succeeds (op : CredOp) (s : Creds) (q : Int) (p' : Cred) : Prop :=
  ∃ p, s.procs.get q = some p ∧
    (∀ bit, p'.has bit = true → p.has bit = true ∨
      ∃ giver p0, op.grant = some (giver, q) ∧ s.procs.get giver = some p0 ∧ p0.has bit = true) ∧
    (p.uid ≠ 0 → p.euid ≠ 0 → p'.uid ≠ 0 ∧ p'.euid ≠ 0)

/-- Where the credentials of a process come from. -/
theorem Change.get (hc : Change op s t) {q : Int} {p' : Cred} (hq : t.get q = some p') :
    (∃ ppid, op.Makes q s ∧ op.parent = some ppid ∧ p' = s.inherited ppid) ∨ Succeeds op s q p' := by
  have hsame : s.procs.get q = some p' → Succeeds op s q p' :=
    fun h => ⟨p', h, fun _ hb => .inl hb, fun hu he => ⟨hu, he⟩⟩
  cases hc with
  | same => exact .inr (hsame hq)
  | remove pid =>
    rw [Table.get_remove] at hq
    split at hq
    · cases hq
    · exact .inr (hsame hq)
  | make ppid hp =>
    rw [Table.get_insert] at hq
    split at hq
    · rename_i e
      cases hq
      exact .inl ⟨ppid, ⟨by rw [hp]; rfl, e⟩, hp, rfl⟩
    · exact .inr (hsame hq)
  | undo ppid =>
    rw [Table.get_remove, Table.get_insert] at hq
    split at hq
    · cases hq
    · exact .inr (hsame hq)
  | grant giver target p0 caps hg hp hcaps =>
    rw [Table.get_modify] at hq
    split at hq
    · rename_i e
      subst e
      obtain ⟨p, hs, rfl⟩ := Option.map_eq_some_iff.mp hq
      refine .inr ⟨p, hs, fun bit hb => ?_, fun hu he => ⟨hu, he⟩⟩
      have hor : (p.caps ||| caps).getLsbD bit = true := hb
      rw [BitVec.getLsbD_or, Bool.or_eq_true] at hor
      rcases hor with hor | hor
      · exact .inl hor
      · exact .inr ⟨giver, p0, hg, hp, given_bit hcaps hor⟩
    · exact .inr (hsame hq)
  | ids me f hcaps hids =>
    rw [Table.get_modify] at hq
    split at hq
    · rename_i e
      subst e
      obtain ⟨p, hs, rfl⟩ := Option.map_eq_some_iff.mp hq
      refine .inr ⟨p, hs, fun bit hb => .inl ?_, hids p hs⟩
      unfold Cred.has at hb ⊢
      rw [hcaps] at hb
      exact hb
    · exact .inr (hsame hq)

theorem CredOp.capsFrom (h : op.Ordinary s) : op.CapsFrom s (op.result s).2 := by
  intro q p' bit hq hb
  rcases (change h).get hq with ⟨ppid, hm, hp, rfl⟩ | ⟨p, hp, hcaps, -⟩
  · obtain ⟨p0, hp0, hb0⟩ := inherited_has hb
    exact .inr (.inl ⟨ppid, p0, hm, hp, hp0, hb0⟩)
  · rcases hcaps bit hb with hb | hb
    · exact .inl ⟨p, hp, hb⟩
    · exact .inr (.inr hb)

theorem CredOp.idsFrom (h : op.Ordinary s) : op.IdsFrom s (op.result s).2 := by
  intro q p' hq
  rcases (change h).get hq with ⟨ppid, hm, hp, rfl⟩ | ⟨p, hp, -, hids⟩
  · exact .inl ⟨ppid, hm, hp, fun h0 p hp => inherited_ids h0 hp⟩
  · exact .inr ⟨p, hp, hids⟩

/-- Nobody gets what nobody had. -/
theorem CredOp.held (h : op.Ordinary s) (hb : (op.result s).2.Held bit) : s.Held bit := by
  obtain ⟨q, p, hq, hb⟩ := hb
  rcases capsFrom h q p bit hq hb with ⟨p0, hp, hb⟩ | ⟨ppid, p0, -, -, hp, hb⟩ | ⟨giver, p0, -, hp, hb⟩
  · exact ⟨q, p0, hp, hb⟩
  · exact ⟨ppid, p0, hp, hb⟩
  · exact ⟨giver, p0, hp, hb⟩

end Change

/-- In every run in which nobody with CAP_SYS_ADMIN makes a call and the parents of new processes are in the table,
each step gives capabilities only to children of those who have them and from one who has them to another, all
capabilities held were held by someone at the start, and who is not root does not become root. -/
theorem creds_confined {s : Creds} (ops : List CredOp) (h : Along run (fun op s _ => op.Ordinary s) ops s) :
    Along run (fun op s1 s2 => op.CapsFrom s1 s2 ∧ (∀ bit, s2.Held bit → s.Held bit) ∧ op.IdsFrom s1 s2) ops s := by
  refine Along.of_inv (fun s' => ∀ bit, s'.Held bit → s.Held bit) (fun op s1 hs hop => ?_) (fun _ hb => hb) h
  have hheld : ∀ bit, (op.result s1).2.Held bit → s.Held bit := fun bit hb => hs bit (held hop hb)
  exact Cmd.wp_of_ok rfl ⟨hheld, capsFrom hop, hheld, idsFrom hop⟩

/-- A process manager and a user. -/
def credExample : Creds where
  procs := (Table.empty.insert 1 { caps := 0xA }).insert 2 { uid := 1000, euid := 1000 }
  nextPid := 3

/-- The manager clones itself, gives the user a capability, and the user forks and asks to be root. -/
theorem creds_confined_user : Along run (fun op s1 s2 => op.CapsFrom s1 s2 ∧
    (∀ bit, s2.Held bit → credExample.Held bit) ∧ op.IdsFrom s1 s2)
    [.cloneProcess 1 1 .done, .capGrant 1 2 0x2, .fork 2 .done, .setuid 2 0, .reap 3] credExample := by
  refine creds_confined _ ⟨⟨?_, ?_⟩, ⟨?_, ?_⟩, ⟨?_, ?_⟩, ⟨?_, ?_⟩, ⟨?_, ?_⟩, trivial⟩
  all_goals first
    | (intro me p hme hp; cases hme; cases hp; rfl)
    | (intro ppid hp; cases hp; rfl)
    | exact nofun

end OpenV
