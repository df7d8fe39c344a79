import OpenV.Kernel.VmSpec

/- Mapping and unmapping on behalf of a process: memory objects, ranges given
   back, and physical memory. -/
namespace OpenV

open Cmd Function

section Object
variable {k k' : Kern} {g : Ghost} {p : Policy} {E X : Kern → Prop} {root va : Nat}

/-- At most the leaf of `va` in the space of `root` has changed, to one for `pa`. -/
def LeafOnly (s : Mm) (g : Ghost) (s' : Mm) (root va pa : Nat) (flags : Word) : Prop :=
  ∀ {r l}, g.role r = .tab 2 none → UserIx l → leafAt s' r l = leafAt s r l ∨
    r = root ∧ l = indices va ∧ leafAt s' r l = mkPte pa (pteV ||| flags)

/-- A round of the loop of `sys_vmo_map`: at most `pa` has a mapping more. -/
structure Shared (p : Policy) (k : Kern) (g : Ghost) (k' : Kern) (g' : Ghost) (root va pa : Nat) (flags : Word) :
    Prop where
  same : k' = { k with mm := k'.mm }
  inv : KInv p [] k' g'
  roots : SameRoots g g'
  ext : ∀ f, g'.ext f = g.ext f
  refs : ∀ f, f ≠ pa → leafRefs k'.mm g' f = leafRefs k.mm g f
  leaf : LeafOnly k.mm g k'.mm root va pa flags

theorem Shared.of_mm {s' : Mm} {g' : Ghost} {pa : Nat} {flags : Word} (h : KInv p [] k g) (hi : Inv p s' g')
    (hroots : SameRoots g g') (hext : ∀ f, g'.ext f = g.ext f)
    (hrefs : ∀ f, f ≠ pa → leafRefs s' g' f = leafRefs k.mm g f) (hleaf : LeafOnly k.mm g s' root va pa flags) :
    Shared p k g { k with mm := s' } g' root va pa flags :=
  ⟨rfl, h.of_mm hi (fun f => by rw [hext]; exact h.ext f) fun hq => (hroots _).mpr (h.root hq), hroots, hext, hrefs,
    hleaf⟩

/-- Pages that are not pages hold no reference: equal counts on pages are equal counts. -/
theorem ext_eq_of_page {s s' : Mm} {g' : Ghost} (h : Inv p s g) (h' : Inv p s' g')
    (hnew : ∀ f, g'.role f = .page → g.role f = .page) {f : Nat}
    (hpage : g.role f = .page → g'.ext f = g.ext f) : g'.ext f = g.ext f := by
  by_cases hf : g.role f = .page
  · exact hpage hf
  · rw [h.count.ext hf, h'.count.ext fun hf' => hf (hnew f hf')]

variable {pa i : Nat} {flags : Word}

theorem vmoMapPage_wp (h : KInv p [] k g) (hr : g.role root = .tab 2 none) (hpa : 0 < g.ext pa)
    (hlt : g.ext pa + leafRefs k.mm g pa < 65535) (hpriv : ¬p.priv)
    (hreach : va + i * pageSize ≤ usizeMax → Reach p (va + i * pageSize)) (hlf : LowFlags flags)
    (hu : has flags pteU = true) (hok : p.leafOk (pteV ||| flags)) (hX : ∀ k, X k) :
    (vmoMapPage root va i pa flags).wp
      (fun _ k' => ∃ g', Shared p k g k' g' root (va + i * pageSize) pa flags) E X k := by
  have hpage := h.mm.page_of_ext hpa
  have hokp : FrameOk k.mm pa := h.mm.pool.ok (by simp [hpage])
  have h1 := h.mm.incr hpage fun hpr => absurd hpr hpriv
  have hsame1 : SameTables k.mm (incrRef pa k.mm) g (g.addExt pa) := SameTables.incr hokp
  have hleaf1 : ∀ r l, leafAt (incrRef pa k.mm) r l = leafAt k.mm r l :=
    leafAt_of_mem (by rw [incrRef_eq hokp]; rfl)
  have hext1 : (g.addExt pa).ext pa = g.ext pa + 1 := update_self ..
  have hother1 : ∀ {f}, f ≠ pa → (g.addExt pa).ext f = g.ext f := fun hf => update_of_ne hf ..
  simp only [vmoMapPage, wp_bind, Kern.onMm, wp_zoom, wp_modify, wp_ite, wp_die]
  refine ⟨fun _ => hX _, fun hle => wp_attempt ?_⟩
  simp only [wp_zoom]
  refine wp_mono (mapPage_page h1 ((hsame1.role _ _ _).mpr hr) (hreach (Nat.le_of_not_lt hle)) hpage
    (by omega) hlf hu hok fun hpr => absurd hpr hpriv) (fun _ s' hd => ?_) (fun s' hd e => ?_)
  · obtain ⟨g', hi, hm⟩ := hd
    simp only [wp_pure]
    have hr1 := fun {r} hr => (hsame1.role r 2 none).mpr hr
    refine ⟨g', Shared.of_mm h hi hm.roots (fun f => ?_) (fun f hf => ?_) fun {r l} hr hl => ?_⟩
    · by_cases e : f = pa
      · have := hm.ext
        rw [e]
        omega
      · exact ext_eq_of_page h.mm hi (fun _ => hm.page_old) fun hf => (hm.ext_other e hf).trans (hother1 e)
    · rw [hm.refs, if_neg hf, leafRefs_frame hsame1]
      rfl
    · by_cases e : r = root
      · subst e
        rw [hm.leaf hl]
        split
        · exact .inr ⟨rfl, ‹_›, rfl⟩
        · exact .inl (hleaf1 r l)
      · exact .inl ((hm.keeps.leaf e (hr1 hr) hl).trans (hleaf1 r l))
  · obtain ⟨g', hi, hg, hroots, -⟩ := hd
    have hpage' := (hg.page hpage).1
    have hext' : g'.ext pa = g.ext pa + 1 := (hg.page hpage).2.1.trans hext1
    have hrefs' : ∀ f, leafRefs s' g' f = leafRefs k.mm g f := fun f => by
      rw [hg.refs, leafRefs_frame hsame1]
    have hpos : 0 < g'.ext pa := by omega
    have hle' : g'.ext pa + leafRefs s' g' pa ≤ 65535 := by
      rw [hrefs']
      omega
    have hok' : FrameOk s' pa := hi.pool.ok (by simp [hpage'])
    have hsame' := SameTables.drop hok' hpage'
    have hi' := hi.drop hpage' hpos hle'
    simp only [wp_bind, wp_zoom, wp_modify, wp_pure]
    refine ⟨_, Shared.of_mm h hi' (hroots.trans fun r => hsame'.role r 2 none) (fun f => ?_) (fun f _ => ?_)
      fun {r l} hr hl => .inl ?_⟩
    · rw [Ghost.drop_ext hi hpage' hpos]
      by_cases e : f = pa
      · rw [e, update_self, hext']
        rfl
      · rw [update_of_ne e]
        exact ext_eq_of_page h.mm hi (fun _ => hg.page_old) fun hf => (hg.page hf).2.1.trans (hother1 e)
    · rw [leafRefs_frame hsame', hrefs']
    · have hr1 := (hsame1.role r 2 none).mpr hr
      rw [(Keeps.drop (R := fun _ => True) hi hpage' hpos hle').leaf trivial (hg.tab hr1) hl,
        (hg.keeps (R := fun _ => True)).leaf trivial hr1 hl]
      exact hleaf1 r l

/-- What the loop of `sys_vmo_map` has done: some of the pages have been mapped, in the space of `root`. -/
structure VmoMapped (p : Policy) (k : Kern) (g : Ghost) (k' : Kern) (g' : Ghost) (root va : Nat) (flags : Word)
    (i : Nat) (pages : List Nat) : Prop where
  same : k' = { k with mm := k'.mm }
  inv : KInv p [] k' g'
  roots : SameRoots g g'
  leaf : ∀ {r l}, g.role r = .tab 2 none → UserIx l → leafAt k'.mm r l = leafAt k.mm r l ∨
    ∃ j pa, pages[j]? = some pa ∧ r = root ∧ l = indices (va + (i + j) * pageSize) ∧
      leafAt k'.mm r l = mkPte pa (pteV ||| flags)

theorem VmoMapped.refl (h : KInv p [] k g) (pages : List Nat) : VmoMapped p k g k g root va flags i pages :=
  ⟨rfl, h, .refl, fun _ _ => .inl rfl⟩

theorem Shared.mapped {g' : Ghost} (h : Shared p k g k' g' root (va + i * pageSize) pa flags) (rest : List Nat) :
    VmoMapped p k g k' g' root va flags i (pa :: rest) := by
  refine ⟨h.same, h.inv, h.roots, fun hr hl => (h.leaf hr hl).imp (fun e => e) fun hx => ?_⟩
  exact ⟨0, pa, rfl, hx⟩

theorem Shared.trans {k'' : Kern} {g' g'' : Ghost} {rest : List Nat}
    (h : Shared p k g k' g' root (va + i * pageSize) pa flags)
    (h' : VmoMapped p k' g' k'' g'' root va flags (i + 1) rest) : VmoMapped p k g k'' g'' root va flags i (pa :: rest) := by
  refine ⟨by rw [h'.same, h.same], h'.inv, h.roots.trans h'.roots, fun hr hl => ?_⟩
  rcases h'.leaf ((h.roots _).mpr hr) hl with e | ⟨j, pa', hj, er, el, e⟩
  · rw [e]
    exact (h.mapped rest).leaf hr hl
  · refine .inr ⟨j + 1, pa', hj, er, ?_, e⟩
    rw [el, Nat.add_assoc, Nat.add_comm 1 j]

/-- The loop of `sys_vmo_map` over the pages from number `i` on. -/
theorem vmoMapLoop_wp (hpriv : ¬p.priv) (hlf : LowFlags flags) (hu : has flags pteU = true)
    (hok : p.leafOk (pteV ||| flags)) (hX : ∀ k, X k) : ∀ (pages : List Nat) (i : Nat) {k : Kern} {g : Ghost},
    KInv p [] k g → g.role root = .tab 2 none → pages.Nodup →
    (∀ f ∈ pages, 0 < g.ext f ∧ g.ext f + leafRefs k.mm g f < 65535) →
    (∀ j, i ≤ j → j < i + pages.length → va + j * pageSize ≤ usizeMax → Reach p (va + j * pageSize)) →
    (vmoMapLoop root va flags i pages).wp (fun _ k' => ∃ g', VmoMapped p k g k' g' root va flags i pages) E X k
  | [], i, k, g, h, _, _, _, _ => by
    simp only [vmoMapLoop, wp_pure]
    exact ⟨g, .refl h []⟩
  | pa :: rest, i, k, g, h, hr, hnd, hpages, hreach => by
    obtain ⟨hpos, hlt⟩ := hpages pa (.head _)
    rw [List.length_cons] at hreach
    simp only [vmoMapLoop, wp_bind, wp_ite, wp_pure]
    refine wp_imp (vmoMapPage_wp h hr hpos hlt hpriv (hreach i le_rfl (by omega)) hlf hu hok hX)
      (fun b k' hd => ?_)
    obtain ⟨g', hd⟩ := hd
    refine ⟨fun _ => ?_, fun _ => ⟨g', hd.mapped rest⟩⟩
    refine wp_imp (vmoMapLoop_wp hpriv hlf hu hok hX rest (i + 1) hd.inv ((hd.roots _).mpr hr)
      (List.nodup_cons.mp hnd).2 (fun f hf => ?_) fun j hj hj' => hreach j (by omega) (by omega))
      fun _ k'' hd' => ?_
    · have hne : f ≠ pa := fun e => (List.nodup_cons.mp hnd).1 (e ▸ hf)
      rw [hd.ext, hd.refs f hne]
      exact hpages f (.tail _ hf)
    · obtain ⟨g'', hd'⟩ := hd'
      exact ⟨g'', hd.trans hd'⟩

theorem lowFlags_protFlags (prot : Nat) : LowFlags (protFlags prot) ∧ has (protFlags prot) pteU = true ∧
    pteV ||| protFlags prot = protFlags prot := by
  unfold protFlags
  split_ifs <;> decide

/-- The addresses that `sys_vmo_map` maps at can be reached under the policy. -/
def MapsWithin (p : Policy) (k : Kern) (vaHint mapSize : Nat) : Prop :=
  ∀ q, k.currentProc = some q → ∀ j < pageUp mapSize / pageSize,
    (vmoMapVa q vaHint (pageUp mapSize)).1 + j * pageSize ≤ usizeMax →
      Reach p ((vmoMapVa q vaHint (pageUp mapSize)).1 + j * pageSize)

/-- No count is about to saturate. -/
def Counted (k : Kern) : Prop := ∀ i < maxPages, k.mm.counts i < 65535

theorem Counted.lt (h : KInv p [] k g) (hc : Counted k) {f : Nat} (hf : g.role f = .page) :
    g.ext f + leafRefs k.mm g f < 65535 := by
  have h1 := (h.mm.count.page hf).1
  have hok : FrameOk k.mm f := h.mm.pool.ok (by simp [hf])
  have h2 := hc _ hok.index_lt
  simp only [Mm.refs] at h1
  omega

theorem Counted.small (h : KInv p [] k g) (hc : Counted k) : Small k.mm g := fun _ hf =>
  Nat.le_of_lt (hc.lt h hf)

/-- What `sys_vmo_map` does besides reserving addresses. -/
inductive VmoMapDone (p : Policy) (k : Kern) (g : Ghost) (handle vaHint mapSize prot : Nat) (k' : Kern) : Prop where
  | refused (h : k' = k)
  | reserved (q : Process) (hq : k.currentProc = some q)
      (h : k' = k.setCurrent (vmoMapVa q vaHint (pageUp mapSize)).2)
  | mapped (q : Process) (id : Nat) (v : Vmo) (g' : Ghost) (hq : k.currentProc = some q)
      (hh : q.fds.get (handle % 2 ^ 32) = some (.vmo id)) (hv : k.vmos id = some v)
      (h : VmoMapped p (k.setCurrent (vmoMapVa q vaHint (pageUp mapSize)).2) g k' g' q.root
        (vmoMapVa q vaHint (pageUp mapSize)).1 (protFlags prot) 0
        (v.physicalPages.take (min (pageUp mapSize / pageSize) v.physicalPages.length)))

theorem vmoMapVa_root (q : Process) (vaHint aligned : Nat) : (vmoMapVa q vaHint aligned).2.root = q.root := by
  unfold vmoMapVa
  split <;> rfl

theorem sysVmoMap_wp (h : KInv p [] k g) (hc : Counted k) (hpriv : ¬p.priv) (handle vaHint mapSize prot : Nat)
    (hok : p.leafOk (protFlags prot)) (hwithin : MapsWithin p k vaHint mapSize) (hX : ∀ k, X k) :
    (sysVmoMap handle vaHint mapSize prot).wp (fun _ => VmoMapDone p k g handle vaHint mapSize prot) E X k := by
  obtain ⟨hlf, hu, hv⟩ := lowFlags_protFlags prot
  simp only [sysVmoMap, wp_ite, wp_pure, wp_bind, wp_get]
  refine ⟨fun _ => .refused rfl, fun _ => ?_⟩
  cases hq : k.currentProc with
  | none => simpa only [wp_pure] using .refused rfl
  | some q =>
    dsimp only
    split
    · rename_i id hh
      have h' : KInv p [] (k.setCurrent (vmoMapVa q vaHint (pageUp mapSize)).2) g := h.setProc hq (vmoMapVa_root ..)
      simp only [wp_ite, wp_die, wp_bind, wp_modify]
      refine ⟨fun _ => hX _, fun _ => ?_⟩
      cases hvmo : k.vmos id with
      | none =>
        simp only [wp_pure]
        exact .reserved q hq rfl
      | some v =>
        simp only [wp_bind, wp_ite, wp_pure]
        have hdone : ∀ k', (∃ g', VmoMapped p _ g k' g' q.root _ (protFlags prot) 0 _) →
            VmoMapDone p k g handle vaHint mapSize prot k' := fun k' hd => by
          obtain ⟨g', hd⟩ := hd
          exact .mapped q id v g' hq hh hvmo hd
        refine wp_imp (vmoMapLoop_wp hpriv hlf hu (by rw [hv]; exact hok) hX _ 0 h' (h.root hq)
          ((h.vmo hvmo).2.sublist (List.take_sublist _ _)) (fun f hf => ?_) fun j _ hj => ?_)
          fun _ k' hd => ⟨fun _ => hdone k' hd, fun _ => hdone k' hd⟩
        · have hpos : 0 < g.ext f := by
            rw [h.ext]
            exact Nat.add_pos_left (vmoRefs_pos h hvmo (List.mem_of_mem_take hf)) _
          exact ⟨hpos, hc.lt h (h.mm.page_of_ext hpos)⟩
        · refine hwithin q hq j ?_
          rw [List.length_take] at hj
          omega
    · simpa only [wp_pure] using .refused rfl

theorem VmoMapDone.sound {handle vaHint mapSize prot : Nat} (h : KInv p [] k g)
    (hd : VmoMapDone p k g handle vaHint mapSize prot k') : Sound p k' := by
  cases hd with
  | refused e =>
    rw [e]
    exact ⟨g, h⟩
  | reserved q hq e =>
    rw [e]
    exact ⟨g, h.setProc hq (vmoMapVa_root ..)⟩
  | mapped q id v g' hq hh hv hd => exact ⟨g', hd.inv⟩

theorem sysVmoMap_keeps (h : KInv p [] k g) (hc : Counted k) (hpriv : ¬p.priv) (handle vaHint mapSize prot : Nat)
    (hok : p.leafOk (protFlags prot)) (hwithin : MapsWithin p k vaHint mapSize) (hX : ∀ k, X k) :
    (sysVmoMap handle vaHint mapSize prot).wp (fun _ k' => Sound p k') E X k :=
  wp_imp (sysVmoMap_wp h hc hpriv handle vaHint mapSize prot hok hwithin hX) fun _ _ hd => hd.sound h

end Object

/-! ## Giving a range back -/

section Range
variable {k : Kern} {g : Ghost} {p : Policy} {E X : Kern → Prop}

/-- The range is above the kernel's root entries, or the policy freezes no table. -/
def UnmapsWithin (p : Policy) (va size : Nat) : Prop :=
  (∀ t, ¬p.frozen t) ∨ ∀ va', pageDown va ≤ va' → va' < saturatingAdd va (pageUp size) → 4 ≤ vpn va' 2

theorem UnmapsWithin.mayUnmap {s : Mm} {root va size va' : Nat} (hw : UnmapsWithin p va size) (h : Inv p s g)
    (hr : g.role root = .tab 2 none) (hle : pageDown va ≤ va') (hlt : va' < saturatingAdd va (pageUp size)) :
    MayUnmap p s root va' := by
  intro t ht _ hf
  rcases hw with hno | h4
  · exact hno t hf
  · exact (at_of_leafTable h hr (vpn_lt _ _) (h4 va' hle hlt) (vpn_lt _ _) ht).not_kern h.tabs
      (h.tabs.frozen hf).1

theorem sysUnmap_keeps (h : KInv p [] k g) (hs : Small k.mm g) (n va size : Nat)
    (hw : UnmapsWithin p va size) (hX : ∀ k, X k) : (sysUnmap n va size).wp (fun _ k' => Sound p k') E X k := by
  have hsame : Sound p k := ⟨g, h⟩
  simp only [sysUnmap, wp_ite, wp_pure, wp_bind, wp_get]
  refine ⟨fun _ => hsame, fun _ => ?_⟩
  cases hq : k.currentProc with
  | none => simpa only [wp_pure] using hsame
  | some q =>
    have hr := h.root hq
    simp only [wp_ite, wp_die, wp_bind, wp_pure, Kern.onMm, wp_zoom]
    refine ⟨fun _ => hX _, fun _ => ?_⟩
    refine wp_mono (unmapLoop_wp (by simp [saturatingAdd]) n (pageDown va) h.mm hs hr
      (by simp only [pageDown, pageSize]; omega) fun va' s' g' hu hle hlt =>
        hw.mayUnmap hu.inv ((hu.role _ _ _).mpr hr) hle hlt)
      (fun _ s' hd => ?_) (fun _ he => he.elim) (fun _ _ => hX _)
    obtain ⟨g', hd⟩ := hd
    exact ⟨g', h.step (hd.step h.mm)⟩

end Range

/-! ## Physical memory -/

section Phys
variable {k : Kern} {g : Ghost} {p : Policy} {E X : Kern → Prop} {s : Mm} {root va pa : Nat} {flags : Word}

theorem Grows.step {s' : Mm} {g' : Ghost} (h : Inv p s g) (h' : Inv p s' g') (hg : Grows s g s' g')
    (hroots : SameRoots g g') : MmStep p s g s' g' :=
  ⟨h', hg.moves h h', hroots, hg.small, fun f _ => le_of_eq (hg.refs f)⟩

/-- A leaf that maps no page of the pool counts for none. -/
theorem MmStep.setLeaf {t i : Nat} {up : Option (Nat × Nat)} {w : Word} (h : Inv p s g)
    (ht : g.role t = .tab 0 up) (hi : i < 512) (hfz : ¬p.frozen t) (hw : WordOk p s g t w)
    (hold : ∀ f, leafTo (s.mem t i) f = false) (hnew : ∀ f, g.role f = .page → leafTo w f = false) :
    MmStep p s g (s.setEntry t i w) g := by
  have hrefs : ∀ f, g.role f = .page → leafRefs (s.setEntry t i w) g f = leafRefs s g f := fun f hf => by
    have hc := leafRefs_setEntry (w := w) h.pool ht hi g.ext f
    rw [hold, hnew f hf] at hc
    exact hc
  refine ⟨h.sameLeaf ht hi hfz hw fun f hf => by rw [hnew f hf, hold], ⟨rfl, rfl, rfl, rfl, fun f hf => ?_⟩,
    .refl, fun hs f hf => by rw [hrefs f hf]; exact hs f hf, fun f hf => le_of_eq (hrefs f (h.page_of_ext hf))⟩
  exact Mm.setEntry_mem_of_ne (ne_of_role (h.page_of_ext hf) ht)

/-- A frame that the allocator does not manage is mapped. -/
theorem mapPage_unmanaged (h : Inv p s g) (hr : g.role root = .tab 2 none) (hreach : Reach p va)
    (ha : pa % 4096 = 0) (hb : pa < 2 ^ 64) (hpa : s.isManagedPage pa = false) (hlf : LowFlags flags)
    (hok : p.leafOk (pteV ||| flags)) :
    (mapPage root va pa flags).wp (fun _ s' => ∃ g', MmStep p s g s' g') (fun s' => ∃ g', MmStep p s g s' g')
      (fun _ => False) s := by
  refine wp_mono (mapPage_wp h hr hreach flags) (fun _ s' hd => ?_) (fun s' hd => ?_)
  · obtain ⟨s1, g1, t, up, h1, hg, hroots, ht, hkt, -, hinv, rfl⟩ := hd
    have hwpa : ptePa (mkPte pa (pteV ||| flags)) = pa := ptePa_mkPte ha hb (lowFlags_pteV_or hlf)
    have hpa1 : s1.isManagedPage pa = false := by
      simpa only [Mm.isManagedPage, hg.ram] using hpa
    have hnew : ∀ f, g1.role f = .page → leafTo (mkPte pa (pteV ||| flags)) f = false := fun f hf =>
      Bool.eq_false_iff.mpr fun x => by
        have hok1 : FrameOk s1 f := h1.pool.ok (by simp [hf])
        rw [← (leafTo_iff.mp x).2.2, hwpa] at hok1
        rw [hok1.managed] at hpa1
        cases hpa1
    have hword : WordOk p s1 g1 t (mkPte pa (pteV ||| flags)) := by
      refine ⟨.inr ?_, fun _ => by rw [pteFlags_mkPte pa (lowFlags_pteV_or hlf)]; exact hok,
        fun _ _ => .inr (by rw [hwpa]; exact hpa1), fun _ hk => absurd hk hkt, fun _ hv hu _ hf => ?_⟩
      · rw [mkPte_v, has_or_left, show has pteV pteV = true by decide, Bool.true_or]
      · have := hnew _ hf
        rw [leafTo_iff.mpr ⟨hv, hu, rfl⟩] at this
        cases this
    have hfz : ¬p.frozen t := fun hf => hkt (h1.tabs.frozen hf).1
    have hold : ∀ f, leafTo (s1.mem t (vpn va 0)) f = false := fun f => by simp [leafTo, hinv]
    exact ⟨g1, (hg.step h h1 hroots).trans (MmStep.setLeaf h1 ht (vpn_lt va 0) hfz hword hold hnew)⟩
  · obtain ⟨g', h', hg, hroots, -⟩ := hd
    exact ⟨g', hg.step h h' hroots⟩

/-- The loop of `sys_phys_map`. -/
theorem physMapLoop_wp (ha : pa % 4096 = 0) (hok : p.leafOk (pteV ||| (pteR ||| pteW ||| pteU)))
    (hX : ∀ k, X k) : ∀ (n i : Nat) {k : Kern} {g : Ghost}, KInv p [] k g → g.role root = .tab 2 none →
    (∀ j, i ≤ j → j < i + n → k.mm.isManagedPage (pa + j * pageSize) = false ∧
      (va + j * pageSize ≤ usizeMax → Reach p (va + j * pageSize))) →
    (physMapLoop root va pa i n).wp (fun _ k' => Sound p k') E X k
  | 0, i, k, g, h, _, _ => by
    simp only [physMapLoop, wp_pure]
    exact ⟨g, h⟩
  | n + 1, i, k, g, h, hr, hall => by
    obtain ⟨hman, hreach⟩ := hall i le_rfl (by omega)
    simp only [physMapLoop, wp_ite, wp_die, wp_bind, Kern.onMm]
    refine ⟨fun _ => hX _, fun hle => wp_attempt ?_⟩
    simp only [not_or, Nat.not_lt] at hle
    simp only [wp_zoom]
    have hb : pa + i * pageSize < 2 ^ 64 := by
      have := hle.2
      simp only [usizeMax] at this
      omega
    refine wp_mono (mapPage_unmanaged h.mm hr (hreach hle.1) (by simp only [pageSize]; omega) hb hman
      (by decide) hok) (fun _ s' hd => ?_) (fun s' hd e => ?_)
    · obtain ⟨g', hd⟩ := hd
      refine physMapLoop_wp ha hok hX n (i + 1) (h.step hd) ((hd.roots _).mpr hr) fun j hj hj' => ?_
      obtain ⟨h1, h2⟩ := hall j (by omega) (by omega)
      exact ⟨by simpa only [Mm.isManagedPage, hd.moves.ram] using h1, h2⟩
    · obtain ⟨g', hd⟩ := hd
      simp only [wp_pure]
      exact ⟨g', h.step hd⟩

/-- The frames of a physical mapping are not the allocator's. -/
def Unmanaged (k : Kern) (pa len : Nat) : Prop :=
  ∀ j < len / pageSize, k.mm.isManagedPage (pa + j * pageSize) = false

theorem sysPhysMap_keeps (h : KInv p [] k g) (va pa len : Nat)
    (hok : p.leafOk (pteV ||| (pteR ||| pteW ||| pteU))) (hman : Unmanaged k pa len)
    (hreach : ∀ j < len / pageSize, va + j * pageSize ≤ usizeMax → Reach p (va + j * pageSize))
    (hX : ∀ k, X k) : (sysPhysMap va pa len).wp (fun _ k' => Sound p k') E X k := by
  have hsame : Sound p k := ⟨g, h⟩
  simp only [sysPhysMap, wp_bind, wp_get]
  cases hq : k.currentProc with
  | none => simpa only [wp_pure] using hsame
  | some q =>
    simp only [wp_ite, wp_pure, wp_bind]
    refine ⟨fun _ => hsame, fun _ => ⟨fun _ => hsame, fun hal => ?_⟩⟩
    simp only [not_or, Decidable.not_not] at hal
    refine wp_imp (physMapLoop_wp hal.2.1 hok hX _ 0 h (h.root hq) fun j _ hj => ?_)
      fun _ _ hd => ⟨fun _ => hd, fun _ => hd⟩
    exact ⟨hman j (by omega), hreach j (by omega)⟩

/-- `sys_mmap` only moves the address counter. -/
theorem sysMmap_keeps (h : KInv p [] k g) (hint len flags : Nat) (fd : Int) (hX : ∀ k, X k) :
    (sysMmap hint len flags fd).wp (fun _ k' => Sound p k') E X k := by
  have hsame : Sound p k := ⟨g, h⟩
  simp only [sysMmap, wp_ite, wp_pure, wp_die, wp_bind, wp_get]
  refine ⟨fun _ => hsame, fun _ => ⟨fun _ => hsame, fun _ => ⟨fun _ => hX _, fun _ => ?_⟩⟩⟩
  cases hq : k.currentProc with
  | none => simpa only [wp_pure] using hsame
  | some q =>
    simp only [wp_bind, wp_modify, wp_pure]
    exact ⟨g, h.setProc hq rfl⟩

end Phys
end OpenV
