import OpenV.Kernel.SwapSpec

/- The memory syscalls keep the kernel invariant. A memory object may only go when
   nothing maps its pages (`Droppable`), and a physical mapping may only be of
   frames the allocator does not manage: the source checks neither. -/
namespace OpenV

open Cmd Function List

section Free
variable {k : Kern} {g : Ghost} {p : Policy} {held : List Nat}

/-- The frames of `pages` have gone back to the allocator. -/
structure Freed (p : Policy) (held : List Nat) (k : Kern) (g : Ghost) (k' : Kern) (g' : Ghost)
    (pages : List Nat) : Prop where
  same : k' = { k with mm := k'.mm }
  inv : KInv p held k' g'
  small : Small k'.mm g'
  refs : ∀ f, leafRefs k'.mm g' f = leafRefs k.mm g f
  ext : ∀ f, f ∉ pages → g'.ext f = g.ext f

theorem decrRef_of_last {s : Mm} {f : Nat} (hok : FrameOk s f) (h : s.refs f = 1) :
    s.pageFreed f = decrRefAndMaybeFree f s := by
  rw [decrRef_eq hok, h]
  rfl

theorem Freed.one {f : Nat} (h : KInv p (f :: held) k g) (hs : Small k.mm g)
    (hown : g.ext f + leafRefs k.mm g f = 1) : k.mm.refs f ≠ 0 ∧ FrameOk k.mm f ∧
      Freed p held k g { k with mm := k.mm.pageFreed f } (g.drop k.mm f) [f] := by
  have hext : 0 < g.ext f := by
    rw [h.ext, count_cons_self]
    omega
  have hpage := h.mm.page_of_ext hext
  have hok : FrameOk k.mm f := h.mm.pool.ok (by simp [hpage])
  have hrefs : k.mm.refs f = 1 := by
    rw [(h.mm.count.page hpage).1, hown]
    rfl
  have hsame := SameTables.drop hok hpage
  have hdrop : ∀ f', (g.drop k.mm f).ext f' = if f' = f then g.ext f - 1 else g.ext f' := fun f' => by
    rw [Ghost.drop_ext h.mm hpage hext]
    exact update_apply ..
  refine ⟨by omega, hok, ?_⟩
  rw [decrRef_of_last hok hrefs]
  refine ⟨rfl, h.of_mm (h.mm.drop hpage hext (by omega)) (fun f' => ?_)
    (fun hq => (hsame.role _ _ _).mpr (h.root hq)), fun f' hf' => ?_, leafRefs_frame hsame, fun f' hf' => ?_⟩
  · rw [hdrop]
    split
    · rename_i e
      rw [e, h.ext, count_cons_self]
      rfl
    · rename_i e
      rw [h.ext, count_cons_of_ne (Ne.symm e)]
  · have hle := hs f' (Ghost.drop_page hf')
    rw [hdrop, leafRefs_frame hsame]
    split
    · rename_i e
      omega
    · exact hle
  · rw [hdrop, if_neg (by simpa using hf')]

theorem freePages_wp {E X : Kern → Prop} : ∀ (pages : List Nat) {k : Kern} {g : Ghost},
    KInv p (pages ++ held) k g → Small k.mm g → (∀ f ∈ pages, g.ext f + leafRefs k.mm g f = 1) →
    (freePages pages).wp (fun _ k' => ∃ g', Freed p held k g k' g' pages) E X k
  | [], k, g, h, hs, _ => by
    simp only [freePages, Cmd.forEach, wp_pure]
    exact ⟨g, rfl, h, hs, fun _ => rfl, fun _ _ => rfl⟩
  | f :: rest, k, g, h, hs, hown => by
    obtain ⟨h0, hok, hone⟩ := Freed.one h hs (hown f (.head _))
    simp only [freePages, Cmd.forEach, wp_bind, Kern.onMm, wp_zoom, wp_freePage hok h0]
    -- a page in hand once is listed once
    have hnot : f ∉ rest := fun hf => by
      have h1 := h.ext f
      have h2 := hown f (.head _)
      have h3 := count_pos_iff.mpr hf
      rw [cons_append, count_cons_self, count_append] at h1
      omega
    refine wp_imp (freePages_wp rest hone.inv hone.small fun f' hf' => ?_) fun _ k' hd => ?_
    · rw [hone.ext f' (fun e => hnot (mem_singleton.mp e ▸ hf')), hone.refs]
      exact hown f' (.tail _ hf')
    · obtain ⟨g', hd⟩ := hd
      refine ⟨g', hd.same, hd.inv, hd.small, fun f' => (hd.refs f').trans (hone.refs f'), fun f' hf' => ?_⟩
      rw [mem_cons, not_or] at hf'
      rw [hd.ext f' hf'.2, hone.ext f' (by simpa using hf'.1)]

end Free

section Create
variable {k : Kern} {g : Ghost} {p : Policy} {E X : Kern → Prop}

/-- Pages in hand that nothing else refers to. -/
def Own (k : Kern) (g : Ghost) (pages : List Nat) : Prop := ∀ f ∈ pages, g.ext f + leafRefs k.mm g f = 1

theorem Own.nodup {pages : List Nat} (h : KInv p pages k g) (ho : Own k g pages) : pages.Nodup := by
  refine nodup_iff_count_le_one.mpr fun f => ?_
  by_cases hf : f ∈ pages
  · have h1 := h.ext f
    have h2 := ho f hf
    omega
  · rw [count_eq_zero.mpr hf]
    exact Nat.zero_le _

/-- The loop of `Vmo::new`. -/
theorem vmoPages_wp : ∀ (n : Nat) (pages : List Nat) {k : Kern} {g : Ghost}, KInv p pages k g →
    Small k.mm g → Own k g pages → (vmoPages n pages).wp (fun r k' => SameProcs k k' ∧ match r with
      | some ps => ∃ g', KInv p ps k' g' ∧ Own k' g' ps
      | none => ∃ g', KInv p [] k' g') E X k
  | 0, pages, k, g, h, _, ho => by
    simp only [vmoPages, wp_pure]
    exact ⟨⟨rfl, rfl⟩, g, h, ho⟩
  | n + 1, pages, k, g, h, hs, ho => by
    have hheld : ∀ f ∈ pages, 0 < g.ext f := fun f hf => by
      rw [h.ext]
      exact Nat.add_pos_right _ (count_pos_iff.mpr hf)
    -- what is owned stays owned while references only go away
    have hstay : ∀ {k' : Kern} {g' : Ghost}, (∀ f ∈ pages, 0 < g'.ext f) →
        (∀ f ∈ pages, g'.ext f = g.ext f ∧ leafRefs k'.mm g' f ≤ leafRefs k.mm g f) → Own k' g' pages :=
      fun {k' g'} hpos htot f hf => by
        obtain ⟨h1, h2⟩ := htot f hf
        have h3 := ho f hf
        have h4 := hpos f hf
        omega
    simp only [vmoPages, wp_bind]
    refine wp_imp (allocPage_keeps h hs) fun r k' hd => ?_
    obtain ⟨hprocs, hd⟩ := hd
    cases r with
    | some page =>
      obtain ⟨g', ht⟩ := hd
      have hinv : KInv p (pages ++ [page]) k' g' := by
        refine ⟨ht.inv.mm, fun f => ?_, ht.inv.root, ht.inv.inj, ht.inv.pid, ht.inv.vmo, ht.inv.swap, ht.inv.satp⟩
        rw [ht.inv.ext, count_append, count_cons, count_cons]
        simp only [count_nil, Nat.zero_add]
      refine wp_imp (vmoPages_wp n (pages ++ [page]) hinv ht.small fun f hf => ?_)
        (fun _ _ hd => ⟨hprocs.trans hd.1, hd.2⟩)
      rcases mem_append.mp hf with hf | hf
      · refine hstay (fun f hf => ?_) (fun f hf => (ht.total f (hheld f hf)).2) f hf
        rw [(ht.total f (hheld f hf)).2.1]
        exact hheld f hf
      · rw [mem_singleton.mp hf]
        exact ht.own
    | none =>
      obtain ⟨g', hk⟩ := hd
      have ho' : Own k' g' pages := hstay fun f hf => by rw [hk.ext]; exact hheld f hf
        fun f hf => ⟨by rw [hk.ext], hk.total f (hheld f hf)⟩
      simp only [wp_bind, wp_pure]
      refine wp_imp (freePages_wp pages (by rw [append_nil]; exact hk.inv) (hk.small hs) ho')
        fun _ k'' hd => ?_
      obtain ⟨g'', hd⟩ := hd
      rw [hd.same]
      exact ⟨hprocs, g'', hd.same ▸ hd.inv⟩

/-- The kernel invariant, for some assignment of roles. -/
def Sound (p : Policy) (k : Kern) : Prop := ∃ g, KInv p [] k g

theorem sysVmoCreate_keeps (h : KInv p [] k g) (hs : Small k.mm g) (size : Nat) (hX : ∀ k, X k) :
    (sysVmoCreate size).wp (fun _ k' => Sound p k') E X k := by
  have hsame : Sound p k := ⟨g, h⟩
  simp only [sysVmoCreate, vmoNew, wp_ite, wp_pure, wp_bind, wp_get]
  refine ⟨fun _ => hsame, fun _ => ?_⟩
  cases hq : k.currentProc with
  | none => simpa only [wp_pure] using hsame
  | some q =>
    simp only [wp_bind]
    refine wp_imp (vmoPages_wp _ [] h hs (fun f hf => by simp at hf)) fun r k' hd => ?_
    obtain ⟨⟨hp, hc⟩, hd⟩ := hd
    cases r with
    | none =>
      simp only [wp_pure]
      exact hd
    | some ps =>
      obtain ⟨g', h', ho⟩ := hd
      have hq' : k'.procs k'.currentPid = some q := by
        rw [hp, hc]
        exact hq
      simp only [wp_pure, wp_bind, wp_get]
      split
      · simpa only [wp_die] using hX _
      · simp only [wp_bind, wp_modify, wp_pure]
        have hv : KInv p (Vmo.mk size ps).physicalPages k' g' := h'
        exact ⟨g', (hv.addVmo (ho.nodup h')).setProc hq' rfl⟩

end Create

/-! ## Handles -/

section Drop
variable {k : Kern} {g : Ghost} {p : Policy} {E X : Kern → Prop}

/-- A memory object without a handle has pages that nothing maps. -/
def Droppable (k : Kern) : Prop := ∀ id v, k.vmos id = some v → k.vmoHeld id = false →
  ∀ f ∈ v.physicalPages, k.mm.refs f = 1

/-- `Droppable`, by what refers to the pages. -/
def Idle (k : Kern) (g : Ghost) : Prop := ∀ id v, k.vmos id = some v → k.vmoHeld id = false →
  Own k g v.physicalPages

theorem Droppable.idle (h : KInv p [] k g) (hd : Droppable k) : Idle k g := by
  intro id v hv hheld f hf
  have hpos : 0 < g.ext f := by
    rw [h.ext]
    exact Nat.add_pos_left (vmoRefs_pos h hv hf) _
  have hc := (h.mm.count.page (h.mm.page_of_ext hpos)).1
  rw [hd id v hv hheld f hf] at hc
  omega

/-- Dropping a handle that has left its table. -/
theorem dropObject_wp (obj : KernelObject) (h : KInv p [] k g) (hs : Small k.mm g) (hidle : Idle k g) :
    (dropObject obj).wp (fun _ k' => ∃ g', KInv p [] k' g' ∧ Small k'.mm g' ∧ Idle k' g') E X k := by
  have hsame : ∃ g', KInv p [] k g' ∧ Small k.mm g' ∧ Idle k g' := ⟨g, h, hs, hidle⟩
  cases obj with
  | vmo id =>
    simp only [dropObject, wp_bind, wp_get, wp_ite, wp_pure]
    refine ⟨fun _ => hsame, fun hheld => ?_⟩
    cases hv : k.vmos id with
    | none => simpa only [wp_pure] using hsame
    | some v =>
      have hown := hidle id v hv (by simpa using hheld)
      simp only [wp_bind, wp_modify]
      refine wp_imp (freePages_wp v.physicalPages (h.dropVmo hv) hs hown) fun _ k' hd => ?_
      obtain ⟨g', hd⟩ := hd
      have hprocs : k'.procs = k.procs := by rw [hd.same]
      have hnext : k'.nextPid = k.nextPid := by rw [hd.same]
      have hvmos : k'.vmos = update k.vmos id none := by rw [hd.same]
      refine ⟨g', hd.inv, hd.small, fun id' v' hv' hheld' f hf => ?_⟩
      rw [hvmos] at hv'
      have hv2 := hv'
      have hne : id' ≠ id := by
        rintro rfl
        simp at hv'
      rw [update_of_ne hne] at hv'
      have hheld0 : k.vmoHeld id' = false := by
        simpa only [Kern.vmoHeld, Kern.pids, hprocs, hnext] using hheld'
      have hf1 := hidle id' v' hv' hheld0 f hf
      -- a page of another object is not among those that went
      have hnot : f ∉ v.physicalPages := fun hf' => by
        have h1 := h.ext f
        have h2 := vmoRefs_update (h.vmo hv).1 none f
        have h3 : 0 < vmoRefs { k with vmos := update k.vmos id none } f :=
          vmoRefs_pos (h.dropVmo hv) hv2 hf
        have h4 := count_pos_iff.mpr hf'
        rw [hv] at h2
        simp only [Vmo.refs] at h2
        omega
      rw [hd.ext f hnot, hd.refs]
      exact hf1
  | _ =>
    simp only [dropObject, wp_pure]
    exact hsame

theorem dropObjects_wp (objs : List KernelObject) (h : KInv p [] k g) (hs : Small k.mm g) (hidle : Idle k g) :
    (dropObjects objs).wp (fun _ k' => Sound p k') E X k := by
  refine wp_forEach (fun _ k' => ∃ g', KInv p [] k' g' ∧ Small k'.mm g' ∧ Idle k' g') ⟨g, h, hs, hidle⟩
    (fun _ obj _ k' _ hI => ?_) (fun k' hI => ?_)
  · obtain ⟨g', h', hs', hidle'⟩ := hI
    exact dropObject_wp obj h' hs' hidle'
  · obtain ⟨g', h', -⟩ := hI
    exact ⟨g', h'⟩

/-- The state of `sys_handle_close` once the handle has left the table. -/
def Kern.closed (k : Kern) (handle : Nat) : Kern :=
  match k.currentProc with
  | none => k
  | some q => k.setCurrent { q with fds := (q.fds.remove (handle % 2 ^ 32)).2 }

theorem sysHandleClose_keeps (h : KInv p [] k g) (hs : Small k.mm g) (handle : Nat)
    (hd : Droppable (k.closed handle)) : (sysHandleClose handle).wp (fun _ k' => Sound p k') E X k := by
  simp only [sysHandleClose, wp_bind, wp_get]
  unfold Kern.closed at hd
  cases hq : k.currentProc with
  | none =>
    simp only [wp_pure]
    exact ⟨g, h⟩
  | some q =>
    rw [hq] at hd
    have h' : KInv p [] (k.setCurrent { q with fds := (q.fds.remove (handle % 2 ^ 32)).2 }) g :=
      h.setProc hq rfl
    simp only [wp_bind, wp_modify]
    cases (q.fds.remove (handle % 2 ^ 32)).1 with
    | none =>
      simp only [wp_pure]
      exact ⟨g, h'⟩
    | some obj =>
      simp only [wp_bind, wp_pure]
      refine wp_imp (dropObject_wp obj h' hs (hd.idle h')) (fun _ k' hd => ?_)
      obtain ⟨g', hk, -⟩ := hd
      exact ⟨g', hk⟩

end Drop
end OpenV
