import OpenV.Lib.Count
import OpenV.Lib.Run
import OpenV.Posix.Lifecycle

/- Page-table roots. A root is destroyed once, when the last process that names it
   leaves, unless `sys_destroy_user_space` hits a root that threads share or an
   exec fails after it has made its new root. -/
namespace OpenV

open Cmd Function LifeOp
namespace Life

/-- The roots in use are those the process table names, and none was destroyed twice. -/
structure Owned (l : Life) : Prop where
  once : l.twice = false
  named : ∀ {pid q}, l.procs pid = some q → l.live q.root = true
  owned : ∀ {root}, l.live root = true → ∃ pid q, l.procs pid = some q ∧ q.root = root

/-! ## Owners -/

/-- The process names `root`. -/
def names (root : Nat) (q : Option Process) : Bool := q.any (·.root == root)

/-- The number of processes in the table that name `root`. -/
def owners (procs : Nat → Option Process) (nextPid root : Nat) : Nat :=
  countWhere (Finset.range nextPid) fun pid => names root (procs pid)

section Owners
variable {procs : Nat → Option Process} {n pid root : Nat} {q : Option Process}

/-- An entry of the table is replaced. -/
theorem owners_update (procs : Nat → Option Process) (q : Option Process) (root : Nat) (hpid : pid < n) :
    owners (update procs pid q) n root + (names root (procs pid)).toNat =
      owners procs n root + (names root q).toNat := by
  have h := countWhere_change
    (q := fun b => names root (update procs pid q b)) (Finset.mem_range.mpr hpid)
    fun b _ hb => by rw [update_of_ne hb]
  simp only [update_self] at h
  exact h

/-- A pid that is not in use adds no owner. -/
theorem owners_succ (h : procs n = none) : owners procs (n + 1) root = owners procs n root := by
  unfold owners countWhere
  rw [Finset.range_add_one, Finset.filter_insert]
  simp [h, names]

theorem owners_pos (hbound : ∀ {pid q}, procs pid = some q → pid < n) :
    0 < owners procs n root ↔ ∃ pid q, procs pid = some q ∧ q.root = root := by
  rw [owners, countWhere_pos]
  constructor
  · rintro ⟨pid, -, h⟩
    obtain ⟨q, hq, hr⟩ := (Option.any_eq_true _ _).mp h
    exact ⟨pid, q, hq, beq_iff_eq.mp hr⟩
  · rintro ⟨pid, q, hq, hr⟩
    exact ⟨pid, Finset.mem_range.mpr (hbound hq), by rw [hq]; exact beq_iff_eq.mpr hr⟩

theorem names_some {q : Process} : names root (some q) = decide (q.root = root) := rfl

theorem names_none : names root none = false := rfl

end Owners

/-! ## Claims on roots -/

/-- Each root has `n` claims on it: it is in use if there are any, and the reference count is their
number, where a missing count is one. -/
structure Claims (l : Life) (n : Nat → Nat) : Prop where
  zero : n 0 = 0
  once : l.twice = false
  live : ∀ root, l.live root = true ↔ 0 < n root
  count : ∀ root, (l.satpRefcount root).getD 1 = max 1 (n root)

/-- The claims are those of the process table. -/
structure Ok (l : Life) : Prop where
  bound : ∀ {pid q}, l.procs pid = some q → pid < l.nextPid
  claims : Claims l (owners l.procs l.nextPid)

section Claims
variable {l : Life} {n : Nat → Nat} {root : Nat} {E X : Life → Prop}

/-- The part of the state that the roots do not see. -/
def SameTable (l l' : Life) : Prop := l'.procs = l.procs ∧ l'.nextPid = l.nextPid

theorem Claims.congr {n' : Nat → Nat} (h : Claims l n) (e : ∀ root, n' root = n root) : Claims l n' := by
  rw [show n' = n from funext e]
  exact h

theorem Claims.setProc (h : Claims l n) (pid : Nat) (q : Option Process) : Claims (l.setProc pid q) n :=
  ⟨h.zero, h.once, h.live, h.count⟩

/-- The allocator's answer is a frame that can be the root of a new space. -/
def Usable (l : Life) (frame : Option Nat) (root : Nat) : Prop := frame = some root ∧ root ≠ 0 ∧ l.live root = false

/-- A new root has one claim, its maker's. -/
theorem newProcessTable_wp (h : Claims l n) {frame : Option Nat} {Q : Nat → Life → Prop}
    (hok : ∀ root, Usable l frame root → n root = 0 → Claims { l with live := update l.live root true } (update n root 1) →
      Q root { l with live := update l.live root true }) (herr : (∀ root, ¬Usable l frame root) → E l) :
    (newProcessTable frame).wp Q E X l := by
  simp only [newProcessTable, wp_bind, wp_get]
  cases frame with
  | none =>
    simp only [wp_fail]
    exact herr fun root hu => by cases hu.1
  | some root =>
    simp only [wp_ite, wp_fail, wp_bind, wp_modify, wp_pure]
    refine ⟨fun hold => herr fun r hu => ?_, fun hnew => ?_⟩
    · obtain ⟨hr, h0, hlive⟩ := hu
      cases hr
      rw [hlive] at hold
      exact hold.elim h0 Bool.false_ne_true
    obtain ⟨h0, hlive⟩ := not_or.mp hnew
    have hn : n root = 0 := by
      have := mt (h.live root).mpr hlive
      omega
    refine hok root ⟨rfl, h0, Bool.eq_false_of_not_eq_true hlive⟩ hn ⟨?_, h.once, fun r => ?_, fun r => ?_⟩
    · rw [update_of_ne (Ne.symm h0), h.zero]
    · by_cases e : r = root
      · simp [e]
      · simp [update_of_ne e, h.live]
    · by_cases e : r = root
      · subst e
        simp [h.count, hn]
      · rw [update_of_ne e, h.count]

/-- The only claim on a root goes with it. -/
theorem Claims.destroyed (h : Claims l n) (hn : n root = 1) : Claims (l.destroyed root) (update n root 0) := by
  have hlive : l.live root = true := (h.live root).mpr (by omega)
  refine ⟨?_, by simp [Life.destroyed, hlive, h.once], fun r => ?_, fun r => ?_⟩
  · by_cases e : root = 0
    · rw [e, update_self]
    · rw [update_of_ne (Ne.symm e), h.zero]
  · by_cases e : r = root
    · simp [Life.destroyed, e]
    · simp [Life.destroyed, update_of_ne e, h.live]
  · by_cases e : r = root
    · subst e
      simp [Life.destroyed, h.count, hn]
    · simp [Life.destroyed, update_of_ne e, h.count]

theorem Claims.setRefs {count : Option Nat} {m : Nat} (h : Claims l n) (hm : 0 < m) (hn : 0 < n root)
    (hc : count.getD 1 = m) : Claims (l.setRefs root count) (update n root m) := by
  have h0 : root ≠ 0 := fun e => by
    rw [e, h.zero] at hn
    omega
  refine ⟨by rw [update_of_ne h0.symm, h.zero], h.once, fun r => ?_, fun r => ?_⟩
  · by_cases e : r = root
    · subst e
      simp [setRefs, h.live, hm, hn]
    · simp [Life.setRefs, update_of_ne e, h.live]
  · by_cases e : r = root
    · subst e
      simp only [setRefs, update_self]
      omega
    · simp [Life.setRefs, update_of_ne e, h.count]

/-- `satp_unshare` gives up one claim, and destroys the root with the last one. -/
theorem release_wp (h : Claims l n) (hn : 0 < n root) {Q : Unit → Life → Prop}
    (hq : ∀ l', SameTable l l' → Claims l' (update n root (n root - 1)) → Q () l') : (release root).wp Q E X l := by
  have hc := h.count root
  simp only [release, satpUnshare, wp_bind, wp_get]
  cases hr : l.satpRefcount root with
  | none =>
    rw [hr, Option.getD_none] at hc
    have h1 : n root = 1 := by omega
    simp only [wp_pure, if_true, destroyUserSpace, wp_modify]
    refine hq (l.destroyed root) ⟨rfl, rfl⟩ ?_
    rw [h1]
    exact h.destroyed h1
  | some count =>
    rw [hr, Option.getD_some] at hc
    have hcount : count = n root := by omega
    simp only [wp_ite, wp_bind, wp_modify, wp_pure, Bool.false_eq_true, destroyUserSpace,
      true_implies, not_true_eq_false, false_implies, not_false_eq_true, and_true, true_and]
    refine ⟨fun h0 => absurd h0 (by omega), fun _ => ⟨fun h1 => ?_, fun h1 => ?_⟩⟩
    · -- the entry of the count goes as well; without it the count is still one
      have h1' : n root = 1 := by omega
      have hone : Claims (l.setRefs root none) _ := h.setRefs Nat.one_pos hn rfl
      have hup := hone.destroyed (update_self root ..)
      rw [update_idem] at hup
      refine hq ((l.setRefs root none).destroyed root) ⟨rfl, rfl⟩ ?_
      rw [h1']
      exact hup
    · refine hq (l.setRefs root (some (count - 1))) ⟨rfl, rfl⟩ (h.setRefs (by omega) hn ?_)
      rw [Option.getD_some, hcount]

theorem Claims.share (h : Claims l n) (hn : 0 < n root) :
    Claims (l.setRefs root (some ((l.satpRefcount root).getD 1 + 1))) (update n root (n root + 1)) := by
  refine h.setRefs (by omega) hn ?_
  rw [Option.getD_some, h.count]
  omega

end Claims

/-! ## The calls -/

section Calls
variable {l : Life} {E X : Life → Prop}
variable {q q' : Process} {l' : Life} {pid : Nat}

/-- The claims after an entry of the table was replaced and the claims on roots have moved with it. -/
theorem Ok.of_update {q : Option Process} (h : Ok l) (hpid : pid < l.nextPid)
    (hprocs : l'.procs = update l.procs pid q) (hnext : l'.nextPid = l.nextPid) {n : Nat → Nat} (hc : Claims l' n)
    (hn : ∀ root, n root + (names root (l.procs pid)).toNat =
      owners l.procs l.nextPid root + (names root q).toNat) : Ok l' := by
  refine ⟨fun {pid' q'} hq => ?_, hc.congr fun root => ?_⟩
  · rw [hprocs, update_apply] at hq
    rw [hnext]
    split at hq
    · rename_i e
      rw [e]
      exact hpid
    · exact h.bound hq
  · rw [hprocs, hnext]
    have := owners_update l.procs q root hpid
    have := hn root
    omega

theorem Ok.owners_root (h : Ok l) (hq : l.procs pid = some q) :
    0 < owners l.procs l.nextPid q.root := (owners_pos h.bound).mpr ⟨pid, q, hq, rfl⟩

/-- An entry changes without changing its root. -/
theorem Ok.setSame (h : Ok l) (hq : l.procs pid = some q) (hroot : q'.root = q.root) :
    Ok (l.setProc pid (some q')) :=
  h.of_update (h.bound hq) rfl rfl (h.claims.setProc ..) fun root => by rw [hq, names_some, names_some, hroot]

/-- A process leaves the table, and its root is released. -/
theorem Ok.leave (h : Ok l) (hq : l.procs pid = some q) (hprocs : l'.procs = update l.procs pid none)
    (hnext : l'.nextPid = l.nextPid)
    (hc : Claims l' (update (owners l.procs l.nextPid) q.root (owners l.procs l.nextPid q.root - 1))) : Ok l' := by
  have hpos := h.owners_root hq
  refine h.of_update (h.bound hq) hprocs hnext hc fun root => ?_
  rw [hq, names_some, names_none]
  by_cases e : q.root = root
  · subst e
    simp only [update_self, decide_true, Bool.toNat_true, Bool.toNat_false]
    omega
  · simp [update_of_ne (Ne.symm e), e]

theorem Ok.root_ne_zero (h : Ok l) (hq : l.procs pid = some q) : q.root ≠ 0 := fun e => by
  have hpos := h.owners_root hq
  rw [e, h.claims.zero] at hpos
  omega

theorem reapZombie_wp (h : Ok l) (pid : Nat) : (reapZombie pid).wp (fun _ => Ok) E X l := by
  refine wp_proc (fun _ => (wp_pure _).mpr h) fun q hq => ?_
  simp only [wp_bind, wp_modify, if_pos (h.root_ne_zero hq)]
  exact release_wp (h.claims.setProc pid none) (h.owners_root hq) fun l' hl' hc => h.leave hq hl'.1 hl'.2 hc

theorem sysReapProcess_wp (h : Ok l) (pid : Nat) : (sysReapProcess pid).wp (fun _ => Ok) E X l := by
  refine wp_proc (fun _ => (wp_pure _).mpr h) fun q hq => ?_
  split
  · simp only [wp_bind, wp_modify, if_pos (h.root_ne_zero hq)]
    have hc : Claims (deallocMemory q.job (q.allocatedPages * 4096) (l.setProc pid none)) _ :=
      ⟨h.claims.zero, h.claims.once, h.claims.live, h.claims.count⟩
    exact release_wp hc (h.owners_root hq) fun l' hl' hc => h.leave hq hl'.1 hl'.2 hc
  · exact (wp_pure _).mpr h

theorem cleanupProcess_wp (h : Ok l) (pid : Nat) : (cleanupProcess pid).wp (fun _ => Ok) E X l := by
  refine wp_proc (fun _ => (wp_pure _).mpr h) fun q hq => ?_
  simp only [wp_bind, wp_modify]
  refine release_wp h.claims (h.owners_root hq) fun l' hl' hc => ?_
  exact h.leave hq (by rw [setProc, hl'.1]) hl'.2 (hc.setProc pid none)

/-- What `Process::new` adds. -/
structure Born (l : Life) (pid : Nat) (q : Process) (l' : Life) : Prop where
  ok : Ok l'
  procs : l'.procs = update l.procs pid (some q)
  new : l.procs pid = none
  sole : owners l'.procs l'.nextPid q.root = 1

theorem processNew_wp (h : Ok l) (ppid : Nat) (frame : Option Nat) (c : Chance) :
    (processNew ppid frame c).wp (fun x => Born l x.1 x.2) Ok X l := by
  simp only [processNew, wp_bind, wp_get, wp_ite, wp_fail, wp_modify]
  refine ⟨fun _ => h, fun _ => ?_⟩
  -- the next pid is taken in any case
  have hnone : l.procs l.nextPid = none := by
    cases hq : l.procs l.nextPid with
    | none => rfl
    | some q => exact absurd (h.bound hq) (Nat.lt_irrefl _)
  have h1 : Ok { l with nextPid := l.nextPid + 1 } := by
    refine ⟨fun hq => Nat.lt_succ_of_lt (h.bound hq), ?_⟩
    have hc : Claims { l with nextPid := l.nextPid + 1 } (owners l.procs l.nextPid) :=
      ⟨h.claims.zero, h.claims.once, h.claims.live, h.claims.count⟩
    exact hc.congr fun root => owners_succ hnone
  refine wp_attempt (newProcessTable_wp h1.claims (fun root _ hn hc => ?_) fun _ _ => ?_)
  · simp only [wp_ite, wp_bind, destroyUserSpace, wp_modify, wp_fail, wp_pure]
    refine ⟨fun _ => ⟨h1.bound, ?_⟩, fun _ => ?_⟩
    · have hd := hc.destroyed (update_self root ..)
      rw [update_idem] at hd
      exact hd.congr fun r => by
        by_cases e : r = root
        · rw [e, update_self]
          exact hn
        · rw [update_of_ne e]
          rfl
    · have hroot : (inherit (l.procs ppid) root c.aslr).root = root := by
        unfold inherit
        split <;> rfl
      have hown : ∀ r, update (owners l.procs (l.nextPid + 1)) root 1 r +
          (names r (l.procs l.nextPid)).toNat = owners l.procs (l.nextPid + 1) r +
          (names r (some (inherit (l.procs ppid) root c.aslr))).toNat := fun r => by
        rw [hnone, names_none, names_some, hroot]
        by_cases e : root = r
        · subst e
          have hn' : owners l.procs (l.nextPid + 1) root = 0 := hn
          simp [hn']
        · simp [update_of_ne (Ne.symm e), e]
      refine ⟨h1.of_update (Nat.lt_succ_self _) rfl rfl (hc.setProc ..) hown, rfl, hnone, ?_⟩
      have hup := owners_update l.procs (some (inherit (l.procs ppid) root c.aslr)) root (Nat.lt_succ_self l.nextPid)
      have hn' : owners l.procs (l.nextPid + 1) root = 0 := hn
      rw [hnone, names_none, names_some, hroot, hn'] at hup
      rw [decide_eq_true rfl, Bool.toNat_false, Nat.add_zero, Nat.zero_add] at hup
      rw [hroot]
      exact hup
  · simp only [wp_fail]
    exact h1

theorem Born.cleanup (hb : Born l pid q l') :
    Ok l' ∧ (cleanupProcess pid).wp (fun _ => Ok) E X l' := ⟨hb.ok, cleanupProcess_wp hb.ok pid⟩

/-- The new process of `CLONE_VM` gives up its own root for the parent's. -/
theorem Born.share {ppid : Nat} {parent : Process} (hb : Born l pid q l') (hp : l'.procs ppid = some parent)
    (hold : (l.procs ppid).isSome = true) :
    Ok (((l'.destroyed q.root).setProc pid (some { q with root := parent.root })).setRefs parent.root
      (some ((l'.satpRefcount parent.root).getD 1 + 1))) := by
  have hq : l'.procs pid = some q := by rw [hb.procs, update_self]
  have hne : ppid ≠ pid := fun e => by
    rw [e, hb.new] at hold
    cases hold
  have hroot : parent.root ≠ q.root := fun e => by
    -- two processes would own the new root
    have htwo : 2 ≤ owners l'.procs l'.nextPid q.root := two_le_countWhere
      (Finset.mem_range.mpr (hb.ok.bound hq)) (Finset.mem_range.mpr (hb.ok.bound hp)) (Ne.symm hne)
      (by rw [hq]; exact decide_eq_true rfl) (by rw [hp, names_some]; exact decide_eq_true e)
    rw [hb.sole] at htwo
    omega
  have hd := (hb.ok.claims.destroyed hb.sole).setProc pid (some { q with root := parent.root })
  have hpos : 0 < update (owners l'.procs l'.nextPid) q.root 0 parent.root := by
    rw [update_of_ne hroot]
    exact hb.ok.owners_root hp
  refine hb.ok.of_update (hb.ok.bound hq) rfl rfl (hd.share hpos) fun r => ?_
  rw [hq, names_some, names_some]
  by_cases e : parent.root = r
  · subst e
    simp [update_of_ne hroot, Ne.symm hroot]
  · by_cases e' : q.root = r
    · subst e'
      simp [update_of_ne (Ne.symm e), e, hb.sole]
    · simp [update_of_ne (Ne.symm e), update_of_ne (Ne.symm e'), e, e']

/-- A process moves to a new root, and its claim on the old one goes. -/
theorem Ok.move (h : Ok l) {newRoot : Nat} (hq : l.procs pid = some q) (hn : owners l.procs l.nextPid newRoot = 0)
    (hnew : q'.root = newRoot) (hprocs : l'.procs = update l.procs pid (some q')) (hnext : l'.nextPid = l.nextPid)
    (hc : Claims l' (update (update (owners l.procs l.nextPid) newRoot 1) q.root
      (owners l.procs l.nextPid q.root - 1))) : Ok l' := by
  have hpos := h.owners_root hq
  have hne : q.root ≠ newRoot := fun e => by
    rw [e] at hpos
    omega
  refine h.of_update (h.bound hq) hprocs hnext hc fun r => ?_
  rw [hq, names_some, names_some, hnew]
  by_cases e : q.root = r
  · subst e
    simp only [update_self, decide_true, Bool.toNat_true, Ne.symm hne, decide_false, Bool.toNat_false]
    omega
  · by_cases e' : newRoot = r
    · subst e'
      simp [update_of_ne (Ne.symm e), e, hn]
    · simp [update_of_ne (Ne.symm e), update_of_ne (Ne.symm e'), e, e']

theorem exit_wp (h : Ok l) (pid : Nat) (status : Int) : (exit pid status).wp (fun _ => Ok) E X l := by
  refine wp_proc (fun _ => (wp_pure _).mpr h) fun q hq => (wp_modify _).mpr ?_
  exact h.setSame hq rfl

/-- The accounting is no part of it. -/
theorem Ok.accounting (h : Ok l) (e : l' = { l with jobs := l'.jobs, pending := l'.pending }) : Ok l' := by
  rw [e]
  exact ⟨h.bound, h.claims.zero, h.claims.once, h.claims.live, h.claims.count⟩

theorem checkCharge_wp (h : Ok l) (pid : Nat) : (checkCharge pid).wp (fun _ => Ok) Ok X l := by
  refine wp_proc (fun _ => (wp_pure _).mpr h) fun q _ => ?_
  simp only [wp_ite, wp_modify, wp_fail]
  exact ⟨fun _ => h.accounting rfl, fun _ => h⟩

theorem charge_wp (h : Ok l) (i : Nat) (mapped : Bool) : (charge i mapped).wp (fun _ => Ok) E X l := by
  simp only [charge, wp_bind, wp_get]
  split
  · simpa only [wp_pure] using h
  · rename_i pid job _
    simp only [wp_bind, wp_modify, wp_ite, wp_pure]
    refine ⟨fun _ => ?_, fun _ => h.accounting rfl⟩
    have hcharged : Ok (allocMemory job 4096 { l with pending := l.pending.eraseIdx i }) := h.accounting rfl
    split
    · rename_i q hq
      exact hcharged.setSame hq rfl
    · exact hcharged

end Calls

theorem Ok.owned {l : Life} (h : Ok l) : Owned l where
  once := h.claims.once
  named hq := (h.claims.live _).mpr (h.owners_root hq)
  owned hr := (owners_pos h.bound).mp ((h.claims.live _).mp hr)

end Life

/-! ## Runs -/

/-- An exec that has made its new root goes through, and `sys_destroy_user_space` is used on a process that
shares its root with no other. -/
def LifeOp.Exclusive (l : Life) : LifeOp → Prop
  | .exec pid frame failure => ∀ q root, l.procs pid = some q → Life.Usable l frame root → failure = none
  | .destroyUserSpace pid _ => ∀ q pid' q', l.procs pid = some q → l.procs pid' = some q' → q'.root = q.root →
      pid' = pid
  | _ => True

section Runs
open Life
variable {l : Life}

/-- The only owner. -/
theorem owners_eq_one (h : Ok l) {pid : Nat} {q : Process} (hq : l.procs pid = some q)
    (hsole : ∀ pid' q', l.procs pid' = some q' → q'.root = q.root → pid' = pid) :
    owners l.procs l.nextPid q.root = 1 := by
  have hup := owners_update l.procs none q.root (h.bound hq)
  have hnone : owners (update l.procs pid none) l.nextPid q.root = 0 := by
    refine countWhere_eq_zero.mpr fun b _ => ?_
    by_cases e : b = pid
    · rw [e, update_self, names_none]
    · rw [update_of_ne e]
      cases hb : l.procs b with
      | none => rfl
      | some q' => exact decide_eq_false fun hr => e (hsole b q' hb hr)
  rw [hq, names_some, names_none, decide_eq_true rfl, Bool.toNat_true, Bool.toNat_false] at hup
  omega

theorem sysExec_step (h : Ok l) (pid : Nat) (frame : Option Nat) (failure : Option String) :
    (Life.sysExec pid frame failure).endsIn (KeepsIff Ok Owned ((LifeOp.exec pid frame failure).Exclusive l)) l := by
  refine wp_proc (fun hq => (wp_fail _).mpr (.of h fun q _ hq' => by rw [hq] at hq'; cases hq')) fun q hq => ?_
  rw [wp_bind]
  refine Life.newProcessTable_wp h.claims (fun root hu hn hc => ?_) fun hno => .of h fun _ root _ hu => absurd hu (hno root)
  cases failure with
  | none =>
    simp only [wp_bind, wp_modify]
    have hpos := h.owners_root hq
    have hne : q.root ≠ root := fun e => by
      rw [e] at hpos
      omega
    have hpos' : 0 < update (owners l.procs l.nextPid) root 1 q.root := by
      rw [update_of_ne hne]
      exact hpos
    refine release_wp (hc.setProc pid (some { q with root := root })) hpos' fun l' hl' hc' => ?_
    rw [update_of_ne hne] at hc'
    exact .of (h.move hq hn rfl hl'.1 hl'.2 hc') fun _ _ _ _ => rfl
  | some e =>
    simp only [wp_fail]
    refine ⟨(fun hx => by cases hx q root hq hu), fun ho => ?_⟩
    -- the new root is in use and no process names it
    obtain ⟨pid', q', hq', hr⟩ := ho.owned (update_self root ..)
    have := h.owners_root hq'
    rw [hr] at this
    omega

theorem sysDestroyUserSpace_step (h : Ok l) (pid : Nat) (frame : Option Nat) :
    (Life.sysDestroyUserSpace pid frame).endsIn (KeepsIff Ok Owned ((LifeOp.destroyUserSpace pid frame).Exclusive l)) l := by
  refine wp_proc (fun hq => (wp_pure _).mpr (.of h fun q _ _ hq' => by rw [hq] at hq'; cases hq')) fun q hq => ?_
  rw [wp_bind]
  refine wp_attempt (Life.newProcessTable_wp h.claims (fun root hu hn hc => ?_) fun _ _ => ?_)
  · simp only [wp_bind, wp_modify, Life.destroyUserSpace]
    refine ⟨fun hx => ?_, fun ho q0 pid' q' hq0 hq' hr => ?_⟩
    · have hone := owners_eq_one h hq fun pid' q' hq' hr => hx q pid' q' hq hq' hr
      have hne : q.root ≠ root := fun e => by
        rw [e] at hone
        omega
      have hc1 := (hc.setProc pid (some { q with root := root, allocatedPages := 0 })).destroyed
        (show update (owners l.procs l.nextPid) root 1 q.root = 1 by
          rw [update_of_ne hne]
          exact hone)
      refine h.move hq hn rfl rfl rfl ?_
      rw [hone]
      exact ⟨hc1.zero, hc1.once, hc1.live, hc1.count⟩
    · -- another owner would be left with a root that is gone
      rw [hq] at hq0
      cases hq0
      by_contra hne
      have hother : update l.procs pid (some { q with root := root, allocatedPages := 0 }) pid' = some q' := by
        rw [update_of_ne hne]
        exact hq'
      have hlive := ho.named hother
      have hgone : update (update l.live root true) q.root false q'.root = true := hlive
      rw [hr, update_self] at hgone
      cases hgone
  · simp only [wp_die]

/-- One step. -/
theorem LifeOp.run_step (h : Ok l) (op : LifeOp) :
    op.run.endsIn (KeepsIff Ok Owned (op.Exclusive l)) l := by
  cases op with
  | spawn ppid frame c failure => exact wp_keeps (posixSpawn_wp (processNew_wp h ppid frame c) Born.cleanup failure)
  | fork ppid frame c cloned =>
    exact wp_keeps (calling_wp h fun _ _ =>
      sysFork_wp (processNew_wp h ppid frame c) Born.cleanup cloned fun _ => trivial)
  | clone ppid vm frame c cloned =>
    exact wp_keeps (calling_wp h fun q hq => sysClone_wp (processNew_wp h ppid frame c) Born.cleanup vm cloned
      fun hb hp => hb.share hp (by rw [hq]; rfl))
  | exec pid frame failure => exact sysExec_step h pid frame failure
  | exit pid status => exact wp_keeps (exit_wp h pid status)
  | reap pid => exact wp_keeps (reapZombie_wp h pid)
  | reapProcess pid => exact wp_keeps (sysReapProcess_wp h pid)
  | destroyUserSpace pid frame => exact sysDestroyUserSpace_step h pid frame
  | check pid => exact wp_keeps (checkCharge_wp h pid)
  | charge i mapped => exact wp_keeps (charge_wp h i mapped)

theorem start_ok : Ok start where
  bound hq := by cases hq
  claims := by
    have hnone : ∀ root, owners start.procs start.nextPid root = 0 := fun root =>
      countWhere_eq_zero.mpr fun _ _ => rfl
    refine Claims.congr ⟨rfl, rfl, fun root => ?_, fun root => rfl⟩ hnone
    exact ⟨fun h => absurd h Bool.false_ne_true, fun h => absurd h (Nat.lt_irrefl 0)⟩

/-- Two threads share a root; both exit and are reaped. -/
def threadsRun : List LifeOp := [.spawn 0 (some 4096) ⟨true, 0⟩ none, .clone 1 true (some 8192) ⟨true, 0⟩ true,
  .exit 1 0, .reap 1, .exit 2 0, .reapProcess 2]

end Runs
end OpenV
