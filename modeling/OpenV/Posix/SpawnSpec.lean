import OpenV.Kernel.MapSpec
import OpenV.Posix.ElfSpec

/- The life of a process keeps the kernel invariant: creation, fork, exec, exit
   and reaping. -/
namespace OpenV

open Cmd Function Kern

section Spaces
variable {k : Kern} {g g' : Ghost} {p : Policy} {held : List Nat} {s' : Mm} {r : Nat}

/-- An address space that no process has may go. -/
theorem KInv.gone (h : KInv p held k g) (hg : Gone p k.mm g s' g' r)
    (hr : ∀ {pid q}, k.procs pid = some q → q.root ≠ r) : KInv p held { k with mm := s' } g' :=
  h.of_mm hg.inv (fun f => by rw [(hg.frees.moves h.mm hg.inv).ext]; exact h.ext f)
    fun hq => hg.keeps.root (hr hq) (h.root hq)

/-- What nobody maps is still mapped by nobody when references only go away. -/
theorem Idle.mono {k k' : Kern} (hi : Idle k g) (hvmos : k'.vmos = k.vmos)
    (hheld : ∀ id, k'.vmoHeld id = k.vmoHeld id) (hext : g'.ext = g.ext)
    (hpos : ∀ id v, k.vmos id = some v → ∀ f ∈ v.physicalPages, 0 < g.ext f)
    (htotal : ∀ f, 0 < g.ext f → leafRefs k'.mm g' f ≤ leafRefs k.mm g f) : Idle k' g' := by
  intro id v hv hh f hf
  rw [hvmos] at hv
  rw [hheld] at hh
  have h1 := hi id v hv hh f hf
  have h2 := hpos id v hv f hf
  have h3 := htotal f h2
  rw [hext]
  omega

theorem KInv.ext_pos (h : KInv p held k g) {id : Nat} {v : Vmo} (hv : k.vmos id = some v) {f : Nat}
    (hf : f ∈ v.physicalPages) : 0 < g.ext f := by
  rw [h.ext]
  exact Nat.add_pos_left (vmoRefs_pos h hv hf) _

theorem Gone.total {s : Mm} (hi : Inv p s g) (h : Gone p s g s' g' r) (f : Nat) (hf : 0 < g.ext f) :
    leafRefs s' g' f ≤ leafRefs s g f :=
  h.frees.total (h.frees.held (hi.page_of_ext hf) hf)

end Spaces

/-! ## Creation and fork -/

section Fork
variable {k : Kern} {g : Ghost} {p : Policy} {X : Kern → Prop}

/-- A new process, with an empty address space. -/
structure Born (p : Policy) (k k' : Kern) (g' : Ghost) (pid : Nat) (q : Process) : Prop where
  inv : KInv p [] k' g'
  proc : k'.procs pid = some q
  fresh : k.procs pid = none
  old : ∀ {pid' q'}, k.procs pid' = some q' → k'.procs pid' = some q'
  empty : ∀ j, 4 ≤ j → j < 512 → k'.mm.mem q.root j = 0#64

theorem processNew_wp (h : KInv p [] k g) (ppid : Nat) (c : Chance) :
    (processNew ppid c).wp (fun r k' => ∃ g', Born p k k' g' r.1 r.2) (fun k' => Sound p k') X k := by
  have hnew : k.procs k.nextPid = none := by
    cases hq : k.procs k.nextPid with
    | none => rfl
    | some q => exact absurd (h.pid hq) (Nat.lt_irrefl _)
  have hbump : KInv p [] { k with nextPid := k.nextPid + 1 } g :=
    ⟨h.mm, h.ext, h.root, h.inj, fun hq => Nat.lt_succ_of_lt (h.pid hq), h.vmo, h.swap, h.satp⟩
  simp only [processNew, wp_bind, wp_get, wp_ite, wp_fail, wp_modify, onMm]
  refine ⟨fun _ => ⟨g, h⟩, fun _ => wp_attempt ?_⟩
  simp only [wp_zoom]
  refine wp_mono (newProcessTable_wp h.mm) (fun root s' hd => ?_) (fun s' hd e => ?_)
  · obtain ⟨g', hi, hg, hroot, hfree, hz, -⟩ := hd
    have hk : KInv p [] { k with nextPid := k.nextPid + 1, mm := s' } g' :=
      hbump.of_mm hi (fun f => by rw [(hg.moves h.mm hi).ext]; exact h.ext f) fun hq => hg.tab (h.root hq)
    have hother : ∀ {pid q}, k.procs pid = some q → q.root ≠ root := fun hq e => by
      have := h.root hq
      rw [e, hfree] at this
      cases this
    simp only [wp_ite, wp_bind, wp_zoom, wp_modify, wp_pure, wp_fail]
    refine ⟨fun _ => ?_, fun _ => ?_⟩
    · refine wp_imp (destroyUserSpace_empty_wp hi hroot hz) (fun _ s'' hd => ?_)
      obtain ⟨g'', hd⟩ := hd
      exact ⟨g'', hk.gone hd hother⟩
    · have hiroot : (inherit (k.procs ppid) root c.aslr).root = root := by
        cases k.procs ppid <;> rfl
      refine ⟨g', hk.putProc (Nat.lt_succ_self _) (by rw [hiroot]; exact hroot)
        (fun _ hq => by rw [hiroot]; exact hother hq), update_self .., hnew, fun {pid' q'} hq => ?_, ?_⟩
      · refine (update_of_ne ?_ ..).trans hq
        rintro rfl
        rw [hnew] at hq
        cases hq
      · rw [hiroot]
        exact hz
  · obtain ⟨rfl, -⟩ := hd
    simp only [wp_fail]
    exact ⟨g, hbump⟩

theorem sysFork_keeps (hp : p.Closed) (h : KInv p [] k g) {q : Process} (hcur : k.currentProc = some q)
    (c : Chance) (hX : ∀ k, X k) : (sysFork c).wp (fun _ k' => Sound p k') (fun k' => Sound p k') X k := by
  simp only [sysFork, wp_bind, wp_get]
  refine wp_imp (processNew_wp h k.currentPid c) fun r k' hd => ?_
  obtain ⟨g', hb⟩ := hd
  have hq : k'.procs k.currentPid = some q := hb.old hcur
  have hne : q.root ≠ r.2.root := fun e => by
    have hpid := hb.inv.inj hq hb.proc e
    have hfresh := hb.fresh
    rw [← hpid] at hfresh
    have hcur : k.procs k.currentPid = some q := hcur
    rw [hfresh] at hcur
    cases hcur
  rw [hq]
  simp only [wp_bind, onMm]
  refine wp_attempt ?_
  simp only [wp_zoom]
  refine wp_mono (cloneUserSpace_wp hp (.inr fun _ => hX _) hne hb.inv.mm (hb.inv.root hq)
    (hb.inv.root hb.proc) hb.empty) (fun _ s' hd => ?_) (fun s' hd e => ?_)
  · obtain ⟨g'', hs, -⟩ := hd
    simp only [wp_pure]
    exact ⟨g'', hb.inv.of_mm hs.inv (fun f => by rw [hs.moves.ext]; exact hb.inv.ext f)
      fun hq => hs.tab (hb.inv.root hq)⟩
  · simp only [wp_die]
    exact hX _

end Fork

/-! ## Exec -/

section Exec
variable {k : Kern} {g : Ghost} {p : Policy} {X : Kern → Prop} {s : Mm} {root : Nat}

theorem mapUserStack_wp {X : Mm → Prop} (h : Inv p s g) (hr : g.role root = .tab 2 none)
    (hok : p.leafOk (pteV ||| (pteR ||| pteW ||| pteU))) :
    (mapUserStack root).wp (fun _ s' => ∃ g', MmStep p s g s' g') (fun s' => ∃ g', MmStep p s g s' g') X s := by
  refine forEach_step h fun i hi {s' g'} hs => ?_
  have hreach : ∀ i < userStackPages,
      4 ≤ vpn (userStackTop - userStackPages * pageSize + i * pageSize) 2 := by decide
  exact mapFresh_wp hs.inv ((hs.roots _).mpr hr) (.inl (hreach i (List.mem_range.mp hi))) (by decide)
    (by decide) hok _ _

/-- The state of `sys_exec` in which handles are closed, as far as handles go. -/
def Kern.execed (k : Kern) : Kern :=
  match k.currentProc with
  | none => k
  | some q => k.setCurrent { q with fds := q.fds.closeOnExec }

theorem satpUnshare_wp {Q : Bool → Kern → Prop} {E : Kern → Prop} (h : ∀ r, k.satpRefcount r = none) (r : Nat) :
    (satpUnshare r).wp Q E X k ↔ Q true k := by
  simp only [satpUnshare, wp_bind, wp_get, h r, wp_pure]

/-- Whether an object has a handle is a matter of the handle tables. -/
theorem vmoHeld_congr {k k' : Kern} (hn : k'.nextPid = k.nextPid)
    (hp : ∀ pid, (k'.procs pid).map Process.fds = (k.procs pid).map Process.fds) (id : Nat) :
    k'.vmoHeld id = k.vmoHeld id := by
  have hsome : ∀ pid, (k'.procs pid).isSome = (k.procs pid).isSome := fun pid => by
    have := congrArg Option.isSome (hp pid)
    simpa using this
  have hpids : k'.pids = k.pids := by
    simp only [pids, hn, hsome]
  unfold vmoHeld
  rw [hpids]
  refine List.any_congr rfl fun pid => ?_
  have := hp pid
  cases h' : k'.procs pid <;> cases h : k.procs pid <;> rw [h, h'] at this <;>
    simp only [Option.map_some, Option.map_none, reduceCtorEq, Option.some.injEq] at this ⊢
  rw [this]

theorem sysExec_keeps (hleaf : ∀ fl, p.leafOk fl → isLeaf fl = true)
    (hstack : p.leafOk (pteV ||| (pteR ||| pteW ||| pteU))) (h : KInv p [] k g) (hs : Small k.mm g)
    (data : Bytes) (hdata : LoadsWithin p data) (hd : Droppable k.execed) (hX : ∀ k, X k) :
    (sysExec data).wp (fun _ k' => Sound p k') (fun k' => Sound p k') X k := by
  simp only [sysExec, wp_bind, wp_get]
  unfold execed at hd
  cases hq : k.currentProc with
  | none =>
    simp only [wp_fail]
    exact ⟨g, h⟩
  | some q =>
    rw [hq] at hd
    have h0 : KInv p [] (k.setCurrent { q with fds := q.fds.closeOnExec }) g := h.setProc hq rfl
    have hidle0 := hd.idle h0
    simp only [wp_bind, onMm, wp_zoom, wp_modify, wp_ite, wp_pure]
    refine wp_mono (newProcessTable_wp h.mm) (fun root s1 hd1 => ?_) (fun s1 hd1 => ?_)
    · obtain ⟨g1, h1, hg1, hroot1, hfree, -, -⟩ := hd1
      have hk1 : KInv p [] { k with mm := s1 } g1 :=
        h.of_mm h1 (fun f => by rw [(hg1.moves h.mm h1).ext]; exact h.ext f) fun hq => hg1.tab (h.root hq)
      have hother : ∀ {pid q}, k.procs pid = some q → q.root ≠ root := fun hq e => by
        have := h.root hq
        rw [e, hfree] at this
        cases this
      refine wp_mono (loadElf_wp h1 hroot1 hdata fun _ => hX _) (fun info s2 hd2 => ?_) (fun s2 hd2 => ?_)
      · obtain ⟨g2, hd2⟩ := hd2
        refine wp_mono (mapUserStack_wp hd2.inv ((hd2.roots _).mpr hroot1) hstack) (fun _ s3 hd3 => ?_)
          (fun s3 hd3 => ?_)
        · obtain ⟨g3, hd3⟩ := hd3
          have hd3 := hd2.trans hd3
          have hk3 := hk1.step hd3
          have hroot3 := (hd3.roots _).mpr hroot1
          have hka : KInv p [] (setCurrent { k with mm := s3 } { q with root := root }) g3 :=
            hk3.putProc (h.pid hq) hroot3 fun _ hq' => hother hq'
          rw [satpUnshare_wp hka.satp]
          refine ⟨fun _ => ?_, absurd rfl⟩
          refine wp_imp (destroyUserSpace_wp hleaf hd3.inv (hd3.small (hg1.small hs))
            ((hd3.roots _).mpr (hg1.tab (h.root hq)))) fun _ s4 hd4 => ?_
          obtain ⟨g4, hd4⟩ := hd4
          have hkb := hka.gone hd4 fun {pid q'} hq' => by
            rcases setProc_cases hq' with ⟨-, rfl⟩ | ⟨hne, hq'⟩
            · exact (hother hq).symm
            · exact fun e => hne (h.inj hq' hq e)
          have hcur : (setCurrent { k with mm := s3 } { q with root := root }).procs k.currentPid =
              some { q with root := root } := update_self ..
          refine dropObjects_wp _ (hkb.setProc hcur rfl) (hd4.frees.small (hd3.small (hg1.small hs))) ?_
          refine hidle0.mono rfl (vmoHeld_congr rfl fun pid => ?_) ?_ (fun _ _ hv _ hf => h.ext_pos hv hf)
            fun f hf => ?_
          · by_cases e : pid = k.currentPid
            · subst e
              simp [setCurrent, setProc]
            · simp [setCurrent, setProc, update_of_ne e]
          · rw [(hd4.frees.moves hd3.inv hd4.inv).ext, hd3.moves.ext, (hg1.moves h.mm h1).ext]
          · have he1 : g1.ext = g.ext := (hg1.moves h.mm h1).ext
            have hf1 : 0 < g1.ext f := by rw [he1]; exact hf
            have hf3 : 0 < g3.ext f := by rw [hd3.moves.ext]; exact hf1
            exact ((hd4.total hd3.inv f hf3).trans (hd3.held f hf1)).trans (le_of_eq (hg1.refs f))
        · obtain ⟨g3, hd3⟩ := hd3
          exact ⟨g3, hk1.step (hd2.trans hd3)⟩
      · obtain ⟨g2, hd2⟩ := hd2
        exact ⟨g2, hk1.step hd2⟩
    · obtain ⟨rfl, -⟩ := hd1
      exact ⟨g, h⟩

end Exec

/-! ## The end of a process -/

section Exit
variable {k : Kern} {g : Ghost} {p : Policy} {E X : Kern → Prop}

/-- The process table of `exit` once the handles have been taken. -/
def Kern.exited (k : Kern) (pid : Nat) (status : Int) : Kern :=
  match k.procs pid with
  | none => k
  | some q => k.setProc pid (some { q with state := .zombie status, fds := q.fds.closeAll })

theorem exit_keeps (h : KInv p [] k g) (hs : Small k.mm g) (pid : Nat) (status : Int)
    (hd : Droppable (k.exited pid status)) : (exit pid status).wp (fun _ k' => Sound p k') E X k := by
  simp only [exit, wp_bind, wp_get]
  unfold exited at hd
  cases hq : k.procs pid with
  | none =>
    simp only [wp_pure]
    exact ⟨g, h⟩
  | some q =>
    rw [hq] at hd
    have h' : KInv p [] (k.setProc pid (some { q with state := .zombie status, fds := q.fds.closeAll })) g :=
      h.setProc hq rfl
    simp only [wp_bind, wp_modify]
    exact dropObjects_wp _ h' hs (hd.idle h')

theorem reapZombie_keeps (hleaf : ∀ fl, p.leafOk fl → isLeaf fl = true) (h : KInv p [] k g)
    (hs : Small k.mm g) (zpid : Nat) (hd : Droppable (k.setProc zpid none)) :
    (reapZombie zpid).wp (fun _ k' => Sound p k') E X k := by
  simp only [reapZombie, wp_bind, wp_get]
  cases hq : k.procs zpid with
  | none =>
    simp only [wp_pure]
    exact ⟨g, h⟩
  | some q =>
    have h1 := h.dropProc zpid
    have hidle := hd.idle h1
    simp only [wp_bind, wp_modify, wp_ite]
    refine ⟨fun _ => dropObjects_wp _ h1 hs hidle, fun _ => ?_⟩
    rw [satpUnshare_wp h1.satp]
    refine ⟨fun _ => ?_, absurd rfl⟩
    have h2 : KInv p [] (evictAll q.root (k.setProc zpid none)) g := h1.setSwap fun {r va sp} hsp => by
      split at hsp
      · cases hsp
      · exact .inl hsp
    simp only [onMm, wp_zoom]
    refine wp_imp (destroyUserSpace_wp hleaf h.mm hs (h.root hq)) (fun _ s' hd => ?_)
    obtain ⟨g', hd⟩ := hd
    -- the reaped process was the only one with this root
    have h3 := h2.gone hd fun {pid q'} hq' e => by
      by_cases hpid : pid = zpid
      · subst hpid
        simp [evictAll, setProc] at hq'
      · simp only [evictAll, setProc, update_of_ne hpid] at hq'
        exact hpid (h.inj hq' hq e)
    refine dropObjects_wp _ h3 (hd.frees.small hs) ?_
    refine hidle.mono rfl (fun _ => rfl) (hd.frees.moves h.mm hd.inv).ext (fun _ _ hv _ hf => h.ext_pos hv hf)
      fun f hf => hd.total h.mm f hf

end Exit
end OpenV
