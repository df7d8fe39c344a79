import OpenV.Lib.Count
import OpenV.Lib.Run
import OpenV.Posix.Lifecycle

/- Job accounting. A job's memory is that of the processes of the job and of the
   jobs below it, and it stays within the limit, unless a process is reaped by
   `waitpid`, which refunds nothing, or two charges pass their check before either
   is made. -/
namespace OpenV

open Cmd Function LifeOp
namespace Life

/-- The pages that `q` has charged to the job `j`. -/
def pages (j : Nat) : Option Process → Nat
  | some q => if j ∈ q.job then q.allocatedPages else 0
  | none => 0

/-- The pages charged by the processes in the table to the job `j`, which is theirs or above theirs. -/
def usage (procs : Nat → Option Process) (nextPid j : Nat) : Nat :=
  ∑ pid ∈ Finset.range nextPid, pages j (procs pid)

/-- The memory of job `j` stands for `u j` pages. -/
structure Books (l : Life) (u : Nat → Nat) : Prop where
  memory : ∀ j, (l.jobs j).currentMemory = 4096 * u j
  limit : ∀ j, (l.jobs j).currentMemory ≤ (l.jobs j).maxMemory
  above : l.underflow = false

/-- Every job's memory is that of its processes and within its limit, and no counter has gone below zero. -/
def Accounts (l : Life) : Prop := Books l (usage l.procs l.nextPid)

/-- The accounts are right, and the jobs of processes and of charges under way are known. -/
structure Acc (l : Life) : Prop where
  bound : ∀ {pid q}, l.procs pid = some q → pid < l.nextPid
  books : Accounts l
  word : ∀ j, (l.jobs j).maxMemory ≤ usizeMax
  chain : ∀ {pid q}, l.procs pid = some q → q.job ≠ []
  pending : ∀ x ∈ l.pending, x.1 < l.nextPid ∧ x.2 ≠ [] ∧ ∀ q, l.procs x.1 = some q → q.job = x.2

/-! ## Usage -/

section Usage
variable {procs : Nat → Option Process} {n pid j : Nat} {q : Option Process} {l : Life} {u : Nat → Nat}

theorem usage_update (procs : Nat → Option Process) (q : Option Process) (j : Nat) (hpid : pid < n) :
    usage (update procs pid q) n j + pages j (procs pid) = usage procs n j + pages j q :=
  sum_update (pages j) procs hpid q

theorem usage_succ (h : procs n = none) : usage procs (n + 1) j = usage procs n j := by
  rw [usage, Finset.sum_range_succ, h]
  rfl

theorem Books.congr {u' : Nat → Nat} (h : Books l u) (e : ∀ j, u' j = u j) : Books l u' := by
  rw [show u' = u from funext e]
  exact h

/-- There is room for one more page in each of the jobs. -/
def Room (l : Life) (job : List Nat) : Prop := ∀ j ∈ job, (l.jobs j).currentMemory + 4096 ≤ (l.jobs j).maxMemory

/-- A charge keeps the books exactly if there is room for it. -/
theorem Books.alloc (h : Books l u) (hw : ∀ j, (l.jobs j).maxMemory ≤ usizeMax) (job : List Nat) :
    Room l job ↔ Books (l.allocMemory job 4096) (fun j => u j + if j ∈ job then 1 else 0) := by
  constructor
  · intro hroom
    refine ⟨fun j => ?_, fun j => ?_, h.above⟩
    · have hm := h.memory j
      by_cases hj : j ∈ job
      · have hr := hroom j hj
        have hmax := hw j
        unfold usizeMax at hmax
        simp only [allocMemory, if_pos hj]
        omega
      · simpa only [allocMemory, if_neg hj, Nat.add_zero] using hm
    · by_cases hj : j ∈ job
      · have hr := hroom j hj
        simp only [allocMemory, if_pos hj]
        exact le_trans (Nat.mod_le _ _) hr
      · simpa only [allocMemory, if_neg hj] using h.limit j
  · intro h' j hj
    have hm := h.memory j
    have hm' := h'.memory j
    have hl' := h'.limit j
    simp only [allocMemory, if_pos hj] at hm' hl'
    omega

/-- A refund of what was charged. -/
theorem Books.dealloc (h : Books l u) (hw : ∀ j, (l.jobs j).maxMemory ≤ usizeMax) {job : List Nat} {m : Nat}
    (hm : ∀ j ∈ job, m ≤ u j) : Books (l.deallocMemory job (m * 4096)) (fun j => u j - if j ∈ job then m else 0) := by
  have hword : ∀ j, (l.jobs j).currentMemory < 2 ^ 64 := fun j => by
    have := h.limit j
    have := hw j
    unfold usizeMax at this
    omega
  have hnew : ∀ j ∈ job, ((l.jobs j).currentMemory + (2 ^ 64 - m * 4096 % 2 ^ 64)) % 2 ^ 64 =
      (l.jobs j).currentMemory - m * 4096 := fun j hj => by
    have := h.memory j
    have := hm j hj
    have := hword j
    omega
  refine ⟨fun j => ?_, fun j => ?_, ?_⟩
  · have hmem := h.memory j
    by_cases hj : j ∈ job
    · simp only [deallocMemory, if_pos hj, hnew j hj]
      omega
    · simpa only [deallocMemory, if_neg hj, Nat.sub_zero] using hmem
  · have hlim := h.limit j
    by_cases hj : j ∈ job
    · simp only [deallocMemory, if_pos hj, hnew j hj]
      omega
    · simpa only [deallocMemory, if_neg hj] using hlim
  · simp only [deallocMemory, h.above, Bool.false_or, List.any_eq_false, decide_eq_true_eq]
    intro j hj hlt
    have := h.memory j
    have := hm j hj
    omega

end Usage

/-! ## The calls -/

section Calls
variable {l l' : Life} {E X : Life → Prop}

/-- Nothing but roots and their reference counts changes. -/
def RootsOnly (l l' : Life) : Prop :=
  l' = { l with satpRefcount := l'.satpRefcount, live := l'.live, twice := l'.twice }

theorem RootsOnly.refl : RootsOnly l l := rfl

theorem Acc.rootsOnly (h : Acc l) (hr : RootsOnly l l') : Acc l' := by
  rw [hr]
  exact ⟨h.bound, ⟨h.books.memory, h.books.limit, h.books.above⟩, h.word, h.chain, h.pending⟩

theorem newProcessTable_only (frame : Option Nat) {Q : Nat → Life → Prop} (hQ : ∀ r l', RootsOnly l l' → Q r l')
    (hE : E l) : (newProcessTable frame).wp Q E X l := by
  simp only [newProcessTable, wp_bind, wp_get]
  cases frame with
  | none => simpa only [wp_fail] using hE
  | some root =>
    simp only [wp_ite, wp_fail, wp_bind, wp_modify, wp_pure]
    exact ⟨fun _ => hE, fun _ => hQ _ _ rfl⟩

theorem release_only (root : Nat) {Q : Unit → Life → Prop} (hQ : ∀ l', RootsOnly l l' → Q () l') :
    (release root).wp Q E (fun _ => True) l := by
  simp only [release, satpUnshare, wp_bind, wp_get]
  split
  · simp only [wp_pure, if_true, destroyUserSpace, wp_modify]
    exact hQ _ rfl
  · simp only [wp_ite, wp_die, wp_bind, wp_modify, wp_pure, Bool.false_eq_true, destroyUserSpace,
      true_implies, not_true_eq_false, false_implies, not_false_eq_true, and_true, true_and]
    exact ⟨fun _ => trivial, fun _ => ⟨fun _ => hQ _ rfl, fun _ => hQ _ rfl⟩⟩

variable {pid : Nat} {q : Process}

/-- An entry of the table is replaced, and the books are kept for the new usage. -/
theorem Acc.of_update (h : Acc l) (hq : l.procs pid = some q) {q' : Option Process}
    (hprocs : l'.procs = update l.procs pid q') (hnext : l'.nextPid = l.nextPid)
    (hjob : ∀ x, q' = some x → x.job = q.job) (hbooks : Accounts l') (hword : ∀ j, (l'.jobs j).maxMemory ≤ usizeMax)
    (hpend : ∀ x ∈ l'.pending, x ∈ l.pending) : Acc l' := by
  have hcases : ∀ {pid' x}, l'.procs pid' = some x → ∃ x0, l.procs pid' = some x0 ∧ x.job = x0.job := by
    intro pid' x hx
    rw [hprocs, update_apply] at hx
    split at hx
    · rename_i e
      exact ⟨q, by rw [e]; exact hq, hjob x hx⟩
    · exact ⟨x, hx, rfl⟩
  refine ⟨fun hx => ?_, hbooks, hword, fun hx => ?_, fun x hx => ?_⟩
  · obtain ⟨x0, hx0, -⟩ := hcases hx
    rw [hnext]
    exact h.bound hx0
  · obtain ⟨x0, hx0, e⟩ := hcases hx
    rw [e]
    exact h.chain hx0
  · obtain ⟨h1, h2, h3⟩ := h.pending x (hpend x hx)
    refine ⟨by rw [hnext]; exact h1, h2, fun y hy => ?_⟩
    obtain ⟨y0, hy0, e⟩ := hcases hy
    rw [e]
    exact h3 y0 hy0

/-- What a process has charged is part of the usage. -/
theorem pages_le_usage (h : Acc l) (hq : l.procs pid = some q) {j : Nat} (hj : j ∈ q.job) :
    q.allocatedPages ≤ usage l.procs l.nextPid j := by
  have hup := usage_update l.procs none j (h.bound hq)
  simp only [hq, pages, if_pos hj] at hup
  omega

/-- A process changes in what the accounts do not see. -/
theorem Acc.setSame (h : Acc l) {q' : Process} (hq : l.procs pid = some q) (hjob : q'.job = q.job)
    (hpages : q'.allocatedPages = q.allocatedPages) : Acc (l.setProc pid (some q')) := by
  refine h.of_update hq rfl rfl (fun x hx => by cases hx; exact hjob) ?_ h.word fun _ hx => hx
  have hb : Books (l.setProc pid (some q')) (usage l.procs l.nextPid) := ⟨h.books.memory, h.books.limit, h.books.above⟩
  refine hb.congr fun j => ?_
  have hup := usage_update l.procs (some q') j (h.bound hq)
  simp only [hq, pages, hjob, hpages] at hup
  exact Nat.add_right_cancel hup

/-- A process leaves the table without a refund: right exactly if it has charged nothing. -/
theorem Acc.leave (h : Acc l) (hq : l.procs pid = some q) :
    KeepsIff Acc Accounts (q.allocatedPages = 0) (l.setProc pid none) := by
  have hup := fun j => usage_update l.procs none j (h.bound hq)
  refine ⟨fun h0 => ?_, fun ha => ?_⟩
  · refine h.of_update hq rfl rfl nofun ?_ h.word fun _ hx => hx
    have hb : Books (l.setProc pid none) (usage l.procs l.nextPid) := ⟨h.books.memory, h.books.limit, h.books.above⟩
    refine hb.congr fun j => ?_
    have := hup j
    simp only [hq, pages, h0, ite_self] at this
    exact this
  · obtain ⟨j, hj⟩ := List.exists_mem_of_ne_nil _ (h.chain hq)
    have hnew : (l.jobs j).currentMemory = 4096 * usage (update l.procs pid none) l.nextPid j := ha.memory j
    have hold := h.books.memory j
    have := hup j
    simp only [hq, pages, if_pos hj] at this
    omega

/-- What a process has charged is refunded. -/
theorem Acc.refund (h : Acc l) (hq : l.procs pid = some q) (q' : Option Process)
    (hjob : ∀ x, q' = some x → x.job = q.job) (hpages : ∀ j, pages j q' = 0) (hl' : RootsOnly (l.setProc pid q') l') :
    Acc (l'.deallocMemory q.job (q.allocatedPages * 4096)) := by
  have hb : Books l' (usage l.procs l.nextPid) := by
    rw [hl']
    exact ⟨h.books.memory, h.books.limit, h.books.above⟩
  have hw : ∀ j, (l'.jobs j).maxMemory ≤ usizeMax := by
    rw [hl']
    exact h.word
  have hd := hb.dealloc hw fun j hj => pages_le_usage h hq hj
  refine h.of_update hq (by rw [hl']; rfl) (by rw [hl']; rfl) hjob ?_ (fun j => ?_) fun x hx => by rw [hl'] at hx; exact hx
  · refine hd.congr fun j => ?_
    have hup := usage_update l.procs q' j (h.bound hq)
    have hprocs : (l'.deallocMemory q.job (q.allocatedPages * 4096)).procs = update l.procs pid q' := by
      rw [hl']
      rfl
    have hnext : (l'.deallocMemory q.job (q.allocatedPages * 4096)).nextPid = l.nextPid := by
      rw [hl']
      rfl
    rw [hprocs, hnext]
    rw [hpages, hq] at hup
    simp only [pages] at hup
    omega
  · have := hw j
    simp only [deallocMemory]
    split
    · exact this
    · exact this

/-- What `Process::new` adds. -/
structure Joined (pid : Nat) (q : Process) (l' : Life) : Prop where
  acc : Acc l'
  proc : l'.procs pid = some q
  pages : q.allocatedPages = 0

theorem Acc.join (h : Acc l) (hpages : q.allocatedPages = 0) (hjob : q.job ≠ [])
    (hl' : RootsOnly { l with nextPid := l.nextPid + 1 } l') :
    Acc l' ∧ Joined l.nextPid q (l'.setProc l.nextPid (some q)) := by
  have hnone : l.procs l.nextPid = none := by
    cases hq : l.procs l.nextPid with
    | none => rfl
    | some q => exact absurd (h.bound hq) (Nat.lt_irrefl _)
  have h1 : Acc { l with nextPid := l.nextPid + 1 } := by
    refine ⟨fun hq => Nat.lt_succ_of_lt (h.bound hq), ?_, h.word, h.chain, fun x hx => ?_⟩
    · have hb : Books { l with nextPid := l.nextPid + 1 } (usage l.procs l.nextPid) :=
        ⟨h.books.memory, h.books.limit, h.books.above⟩
      exact hb.congr fun j => usage_succ hnone
    · exact ⟨Nat.lt_succ_of_lt (h.pending x hx).1, (h.pending x hx).2⟩
  have h2 := h1.rootsOnly hl'
  have hprocs : l'.procs = l.procs := by rw [hl']
  have hnext : l'.nextPid = l.nextPid + 1 := by rw [hl']
  have hpend : l'.pending = l.pending := by rw [hl']
  refine ⟨h2, ⟨fun {pid x} hx => ?_, ?_, h2.word, fun {pid x} hx => ?_, fun x hx => ?_⟩, update_self .., hpages⟩
  · simp only [setProc, update_apply] at hx
    split at hx
    · rename_i e
      rw [e]
      exact hnext ▸ Nat.lt_succ_self _
    · exact h2.bound hx
  · have hb : Books (l'.setProc l.nextPid (some q)) (usage l'.procs l'.nextPid) :=
      ⟨h2.books.memory, h2.books.limit, h2.books.above⟩
    refine hb.congr fun j => ?_
    have hup := usage_update l'.procs (some q) j (show l.nextPid < l'.nextPid by omega)
    rw [hprocs, hnone] at hup
    simp only [pages, hpages, ite_self] at hup
    show usage (update l'.procs l.nextPid (some q)) l'.nextPid j = usage l'.procs l'.nextPid j
    rw [hprocs]
    exact hup
  · simp only [setProc, update_apply] at hx
    split at hx
    · cases hx
      exact hjob
    · exact h2.chain hx
  · obtain ⟨p1, p2, p3⟩ := h2.pending x hx
    refine ⟨p1, p2, fun y hy => p3 y ?_⟩
    have hne : x.1 ≠ l.nextPid := Nat.ne_of_lt (h.pending x (hpend ▸ hx)).1
    simpa only [setProc, update_of_ne hne] using hy

theorem processNew_acc (h : Acc l) (ppid : Nat) (frame : Option Nat) (c : Chance) :
    (processNew ppid frame c).wp (fun x => Joined x.1 x.2) Acc X l := by
  have hnew : ∀ root, (inherit (l.procs ppid) root c.aslr).allocatedPages = 0 ∧
      (inherit (l.procs ppid) root c.aslr).job ≠ [] := fun root => by
    unfold inherit
    split
    · rename_i p hp
      have hjob := h.chain hp
      exact ⟨rfl, hjob⟩
    · exact ⟨rfl, List.cons_ne_nil _ _⟩
  simp only [processNew, wp_bind, wp_get, wp_ite, wp_fail, wp_modify]
  refine ⟨fun _ => h, fun _ => ?_⟩
  refine wp_attempt (newProcessTable_only frame (fun root l' hl' => ?_) fun _ => ?_)
  · simp only [wp_ite, wp_bind, destroyUserSpace, wp_modify, wp_fail, wp_pure]
    obtain ⟨h1, h2⟩ := h.join (hnew root).1 (hnew root).2 hl'
    exact ⟨fun _ => h1.rootsOnly rfl, fun _ => h2⟩
  · simp only [wp_fail]
    exact (h.join (hnew 0).1 (hnew 0).2 .refl).1

theorem Joined.cleanup (hj : Joined pid q l) :
    Acc l ∧ (cleanupProcess pid).wp (fun _ => Acc) E (fun _ => True) l := by
  refine ⟨hj.acc, ?_⟩
  simp only [cleanupProcess, wp_bind, wp_get, hj.proc, wp_modify]
  refine release_only q.root fun l' hl' => ?_
  exact ((hj.acc.rootsOnly hl').leave (by rw [hl']; exact hj.proc)).1 hj.pages

theorem Joined.share {parent : Process} (hj : Joined pid q l) :
    Acc (((l.destroyed q.root).setProc pid (some { q with root := parent.root })).setRefs parent.root
      (some ((l.satpRefcount parent.root).getD 1 + 1))) := by
  have h1 : Acc (l.destroyed q.root) := hj.acc.rootsOnly rfl
  have h2 : Acc ((l.destroyed q.root).setProc pid (some { q with root := parent.root })) := h1.setSame hj.proc rfl rfl
  exact h2.rootsOnly rfl

section
variable (h : Acc l) (pid : Nat)
include h

theorem sysExec_acc (frame : Option Nat) (failure : Option String) :
    (sysExec pid frame failure).endsIn Acc l := by
  refine wp_proc (fun _ => (wp_fail _).mpr h) fun q hq => ?_
  rw [wp_bind]
  refine newProcessTable_only frame (fun root l' hl' => ?_) h
  have h1 := h.rootsOnly hl'
  cases failure with
  | none =>
    simp only [wp_bind, wp_modify]
    have hq' : l'.procs pid = some q := by
      rw [hl']
      exact hq
    have h2 : Acc (l'.setProc pid (some { q with root := root })) := h1.setSame hq' rfl rfl
    exact release_only q.root fun l'' hl'' => h2.rootsOnly hl''
  | some e => exact (wp_fail _).mpr h1

theorem exit_acc (status : Int) : (exit pid status).wp (fun _ => Acc) E X l :=
  wp_proc (fun _ => (wp_pure _).mpr h) fun _ hq => (wp_modify _).mpr (h.setSame hq rfl rfl)

theorem sysReapProcess_acc : (sysReapProcess pid).wp (fun _ => Acc) E (fun _ => True) l := by
  refine wp_proc (fun _ => (wp_pure _).mpr h) fun q hq => ?_
  split
  · have hr := h.refund hq none nofun (fun _ => rfl) .refl
    simp only [wp_bind, wp_modify, wp_ite, wp_pure]
    exact ⟨fun _ => release_only q.root fun l' hl' => hr.rootsOnly hl', fun _ => hr⟩
  · exact (wp_pure _).mpr h

theorem sysDestroyUserSpace_acc (frame : Option Nat) :
    (sysDestroyUserSpace pid frame).wp (fun _ => Acc) E (fun _ => True) l := by
  refine wp_proc (fun _ => (wp_pure _).mpr h) fun q hq => ?_
  rw [wp_bind]
  refine wp_attempt (newProcessTable_only frame (fun root l' hl' => ?_) fun _ => (wp_die _).mpr trivial)
  simp only [wp_bind, wp_modify, destroyUserSpace]
  refine h.refund hq (some { q with root := root, allocatedPages := 0 }) (fun x hx => by cases hx; rfl) (fun j => ?_) ?_
  · simp [pages]
  · rw [hl']
    rfl

theorem checkCharge_acc : (checkCharge pid).wp (fun _ => Acc) Acc X l := by
  refine wp_proc (fun _ => (wp_pure _).mpr h) fun q hq => ?_
  simp only [wp_ite, wp_modify, wp_fail]
  refine ⟨fun _ => ⟨h.bound, ⟨h.books.memory, h.books.limit, h.books.above⟩, h.word, h.chain, fun x hx => ?_⟩,
    fun _ => h⟩
  rcases List.mem_append.mp hx with hx | hx
  · exact h.pending x hx
  · rw [List.mem_singleton.mp hx]
    refine ⟨h.bound hq, h.chain hq, fun y hy => ?_⟩
    rw [hq] at hy
    cases hy
    rfl

end

/-- A page is charged to the jobs of a process. -/
def charged (l : Life) (i pid : Nat) (job : List Nat) : Life :=
  match l.procs pid with
  | some q => (allocMemory job 4096 { l with pending := l.pending.eraseIdx i }).setProc pid
      (some { q with allocatedPages := q.allocatedPages + 1 })
  | none => allocMemory job 4096 { l with pending := l.pending.eraseIdx i }

/-- Right exactly if the process is still there and there is still room. -/
theorem Acc.charged (h : Acc l) {i : Nat} {job : List Nat} (hi : l.pending[i]? = some (pid, job)) :
    KeepsIff Acc Accounts ((l.procs pid).isSome = true ∧ Room l job) (l.charged i pid job) := by
  obtain ⟨hpid, hne, hjob⟩ := h.pending _ (List.mem_of_getElem? hi)
  have hbooks : Books { l with pending := l.pending.eraseIdx i } (usage l.procs l.nextPid) :=
    ⟨h.books.memory, h.books.limit, h.books.above⟩
  unfold Life.charged
  cases hq : l.procs pid with
  | none =>
    refine ⟨fun hC => absurd hC.1 Bool.false_ne_true, fun ha => ?_⟩
    -- the job is charged for a process that is gone
    obtain ⟨j, hj⟩ := List.exists_mem_of_ne_nil _ hne
    have hnew := ha.memory j
    have hold := h.books.memory j
    have hword := h.word j
    simp only [allocMemory, if_pos hj] at hnew
    omega
  | some q =>
    have hqjob : q.job = job := hjob q hq
    have husage : ∀ j, usage (update l.procs pid (some { q with allocatedPages := q.allocatedPages + 1 }))
        l.nextPid j = usage l.procs l.nextPid j + if j ∈ job then 1 else 0 := fun j => by
      have hup := usage_update l.procs (some { q with allocatedPages := q.allocatedPages + 1 }) j hpid
      have hold : pages j (l.procs pid) = if j ∈ job then q.allocatedPages else 0 := by
        rw [hq, ← hqjob]
        rfl
      have hnew : pages j (some { q with allocatedPages := q.allocatedPages + 1 }) =
          if j ∈ job then q.allocatedPages + 1 else 0 := by
        rw [← hqjob]
        rfl
      rw [hold, hnew] at hup
      by_cases hj : j ∈ job
      · simp only [if_pos hj] at hup ⊢
        omega
      · simp only [if_neg hj] at hup ⊢
        omega
    have hiff := hbooks.alloc h.word job
    have hmove : Accounts ((allocMemory job 4096 { l with pending := l.pending.eraseIdx i }).setProc pid
        (some { q with allocatedPages := q.allocatedPages + 1 })) ↔
        Books (allocMemory job 4096 { l with pending := l.pending.eraseIdx i })
          (fun j => usage l.procs l.nextPid j + if j ∈ job then 1 else 0) := by
      rw [← funext husage]
      exact ⟨fun hb => ⟨hb.memory, hb.limit, hb.above⟩, fun hb => ⟨hb.memory, hb.limit, hb.above⟩⟩
    refine ⟨fun hC => ?_, fun ha => ⟨rfl, hiff.mpr (hmove.mp ha)⟩⟩
    refine h.of_update hq rfl rfl (fun x hx => by cases hx; rfl) (hmove.mpr (hiff.mp hC.2)) (fun j => ?_)
      fun x hx => List.mem_of_mem_eraseIdx hx
    have hword := h.word j
    simp only [setProc, allocMemory]
    split
    · exact hword
    · exact hword

end Calls
end Life

/-! ## Runs -/

/-- A process reaped by `waitpid` has charged nothing; when a charge is made, its process is still there and
there is still room for it in all of its jobs. -/
def LifeOp.Accounted (l : Life) : LifeOp → Prop
  | .reap pid => ∀ q, l.procs pid = some q → q.allocatedPages = 0
  | .charge i mapped => ∀ pid job, mapped = true → l.pending[i]? = some (pid, job) →
      (l.procs pid).isSome = true ∧ Life.Room l job
  | _ => True

section Runs
open Life
variable {l : Life}

theorem reapZombie_step (h : Acc l) (pid : Nat) :
    (Life.reapZombie pid).endsIn (KeepsIff Acc Accounts ((LifeOp.reap pid).Accounted l)) l := by
  refine wp_proc (fun hq => (wp_pure _).mpr (.of h fun q hq' => by rw [hq] at hq'; cases hq')) fun q hq => ?_
  obtain ⟨h1, h2⟩ := h.leave hq
  have hC : (LifeOp.reap pid).Accounted l ↔ q.allocatedPages = 0 := by
    refine ⟨fun hC => hC q hq, fun h0 q' hq' => ?_⟩
    rw [hq] at hq'
    cases hq'
    exact h0
  have hkeep : ∀ l', RootsOnly (l.setProc pid none) l' → KeepsIff Acc Accounts ((LifeOp.reap pid).Accounted l) l' :=
    fun l' hl' => ⟨fun hc => (h1 (hC.mp hc)).rootsOnly hl', fun ha => hC.mpr (h2 (by
      rw [hl'] at ha
      exact ⟨ha.memory, ha.limit, ha.above⟩))⟩
  simp only [wp_bind, wp_modify, wp_ite, wp_pure]
  exact ⟨fun _ => release_only q.root hkeep, fun _ => hkeep _ .refl⟩

theorem charge_step (h : Acc l) (i : Nat) (mapped : Bool) :
    (Life.charge i mapped).endsIn (KeepsIff Acc Accounts ((LifeOp.charge i mapped).Accounted l)) l := by
  simp only [Life.charge, wp_bind, wp_get]
  cases hi : l.pending[i]? with
  | none =>
    simp only [wp_pure]
    exact .of h fun pid job _ hi' => by
      rw [hi] at hi'
      cases hi'
  | some x =>
    obtain ⟨pid, job⟩ := x
    cases mapped with
    | false =>
      simp only [wp_bind, wp_modify, Bool.false_eq_true, if_false, wp_pure]
      refine .of ⟨h.bound, ⟨h.books.memory, h.books.limit, h.books.above⟩, h.word, h.chain, fun x hx => ?_⟩
        fun _ _ e _ => by cases e
      exact h.pending x (List.mem_of_mem_eraseIdx hx)
    | true =>
      have hC : (LifeOp.charge i true).Accounted l ↔ (l.procs pid).isSome = true ∧ Life.Room l job := by
        refine ⟨fun hC => hC pid job rfl hi, fun hC pid' job' _ hi' => ?_⟩
        rw [hi] at hi'
        cases hi'
        exact hC
      obtain ⟨h1, h2⟩ := h.charged hi
      simp only [wp_bind, wp_modify, if_true]
      exact ⟨fun hc => h1 (hC.mp hc), fun ha => hC.mpr (h2 ha)⟩

/-- One step. -/
theorem LifeOp.run_accounts (h : Acc l) (op : LifeOp) :
    op.run.endsIn (KeepsIff Acc Accounts (op.Accounted l)) l := by
  cases op with
  | spawn ppid frame c failure => exact wp_keeps (posixSpawn_wp (processNew_acc h ppid frame c) Joined.cleanup failure)
  | fork ppid frame c cloned =>
    exact wp_keeps (calling_wp h fun _ _ =>
      sysFork_wp (processNew_acc h ppid frame c) Joined.cleanup cloned fun _ => trivial)
  | clone ppid vm frame c cloned =>
    exact wp_keeps (calling_wp h fun _ _ =>
      sysClone_wp (processNew_acc h ppid frame c) Joined.cleanup vm cloned fun hj _ => hj.share)
  | exec pid frame failure => exact wp_keeps (sysExec_acc h pid frame failure)
  | exit pid status => exact wp_keeps (exit_acc h pid status)
  | reap pid => exact reapZombie_step h pid
  | reapProcess pid => exact wp_keeps (sysReapProcess_acc h pid)
  | destroyUserSpace pid frame => exact wp_keeps (sysDestroyUserSpace_acc h pid frame)
  | check pid => exact wp_keeps (checkCharge_acc h pid)
  | charge i mapped => exact charge_step h i mapped

/-- In every run, every job's memory is that of the processes below it, within its limit, and never below zero,
exactly if the steps meet the condition. -/
theorem job_memory_accounted (ops : List LifeOp) (h : Acc l) :
    Along run (fun op l _ => op.Accounted l) ops l ↔ Along run (fun _ _ l' => Accounts l') ops l :=
  along_iff_of (fun _ h => h.books) (fun op _ h => op.run_accounts h) h

theorem start_acc : Acc start where
  bound hq := by cases hq
  books := ⟨fun _ => rfl, fun _ => Nat.zero_le _, rfl⟩
  word _ := le_refl _
  chain hq := by cases hq
  pending _ hx := by cases hx

/-- A process faults in a page, exits and is reaped by `sys_reap_process`. -/
def chargedRun : List LifeOp := [.spawn 0 (some 4096) ⟨true, 0⟩ none, .check 1, .charge 0 true, .exit 1 0, .reapProcess 1]

theorem job_memory_accounted_charged : Along run (fun _ _ l' => Accounts l') chargedRun start :=
  (job_memory_accounted chargedRun start_acc).mp ⟨trivial, trivial, fun pid job _ hi => by
    cases hi
    exact ⟨rfl, fun j hj => by
      rw [List.mem_singleton.mp hj]
      decide⟩, trivial, trivial, trivial⟩

/-- Two processes, and room for one page. -/
def raceRun : List LifeOp := [.spawn 0 (some 4096) ⟨true, 0⟩ none, .spawn 0 (some 8192) ⟨true, 0⟩ none, .check 1, .check 2,
  .charge 0 true, .charge 0 true]

/-- Reaped by `waitpid` instead, the process leaves its page on the job's account. And two charges that are
checked before either is made exceed the limit. -/
theorem job_memory_lost :
    (∃ l', runAll run [.spawn 0 (some 4096) ⟨true, 0⟩ none, .check 1, .charge 0 true, .exit 1 0, .reap 1]
      start = some l' ∧ ¬Accounts l') ∧
    ∃ l', runAll run raceRun { start with jobs := fun _ => { maxMemory := 4096 } } = some l' ∧ ¬Accounts l' := by
  constructor
  · refine exists_of_any (fun l' => l'.nextPid == 2 && (l'.jobs 0).currentMemory == 4096 && (l'.procs 0).isNone &&
      (l'.procs 1).isNone) (by decide +kernel) fun l' hbad h => ?_
    simp only [Bool.and_eq_true, beq_iff_eq, Option.isNone_iff_eq_none] at hbad
    obtain ⟨⟨⟨hn, hmem⟩, h0⟩, h1⟩ := hbad
    have hzero := h.memory 0
    rw [hmem, hn, usage, Finset.sum_range_succ, Finset.sum_range_one, h0, h1] at hzero
    cases hzero
  · refine exists_of_any (fun l' => decide ((l'.jobs 0).maxMemory < (l'.jobs 0).currentMemory)) (by decide +kernel)
      fun l' hbad h => ?_
    exact absurd (h.limit 0) (Nat.not_le.mpr (of_decide_eq_true hbad))

end Runs
end OpenV
