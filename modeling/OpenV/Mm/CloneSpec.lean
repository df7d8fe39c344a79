import OpenV.Mm.CowSpec

/- What `clone_user_space` does: the child's space maps the pages of the
   parent's, both copy-on-write where the parent could write, and nothing else
   changes. -/
namespace OpenV

open Cmd Function List

/-- `e'` maps the page of `e`, with the flags of a shared page. -/
def Shares (s : Mm) (e e' : Word) : Prop :=
  e = 0#64 ∧ e' = 0#64 ∨ has e pteV = true ∧ ptePa e' = ptePa e ∧
    pteFlags e' = sharedFlags (s.isManagedPage (ptePa e)) (pteFlags e)

section Shares
variable {s : Mm} {e e' e'' : Word}

theorem Shares.of_valid (h : Shares s e e') (hv : has e pteV = true) :
    ptePa e' = ptePa e ∧ pteFlags e' = sharedFlags (s.isManagedPage (ptePa e)) (pteFlags e) := by
  rcases h with ⟨rfl, -⟩ | ⟨-, h⟩
  · cases hv
  · exact h

theorem Shares.valid (h : Shares s e e') (hv : has e pteV = true) : has e' pteV = true := by
  rw [← pteFlags_v, (h.of_valid hv).2]
  exact (has_sharedFlags _ _).1

theorem Shares.user (h : Shares s e e') (hv : has e pteV = true) : has e' pteU = has e pteU := by
  rw [← pteFlags_u e', (h.of_valid hv).2, (has_sharedFlags _ _).2.2.2, pteFlags_u]

theorem Shares.trans (h : Shares s e e') (h' : Shares s e' e'') : Shares s e e'' := by
  rcases h with ⟨rfl, rfl⟩ | h
  · exact h'
  · obtain ⟨hpa, hfl⟩ := h'.of_valid (Shares.valid (.inr h) h.1)
    refine .inr ⟨h.1, hpa.trans h.2.1, ?_⟩
    rw [hfl, h.2.1, h.2.2, sharedFlags_idem]

theorem Shares.of_ram {s' : Mm} (hram : s'.ramStart = s.ramStart) (h : Shares s' e e') : Shares s e e' := by
  unfold Shares Mm.isManagedPage at *
  rw [hram] at h
  exact h

/-- The word `clone_level` writes for the leaf `e`. -/
theorem Shares.mkPte (hv : has e pteV = true) :
    Shares s e (mkPte (ptePa e) (sharedFlags (s.isManagedPage (ptePa e)) (pteFlags e))) := by
  refine .inr ⟨hv, ?_, ?_⟩
  · exact ptePa_mkPte (ptePa_mod e) (ptePa_lt e) (lowFlags_sharedFlags _ _)
  · exact pteFlags_mkPte _ (lowFlags_sharedFlags _ _)

/-- A leaf that is not writable, or not a managed user page, is its own share. -/
theorem Shares.self (hv : has e pteV = true)
    (h : (has e pteU && s.isManagedPage (ptePa e) && has e pteW) = false) : Shares s e e := by
  refine .inr ⟨hv, rfl, (sharedFlags_other (lowFlags_pteFlags e) ?_ ?_).symm⟩
  · rw [pteFlags_v, hv]
  · rw [pteFlags_u, pteFlags_w, h]

end Shares

/-- From `s` to `s'`, the child `C` has taken over the pages of `D` from the parent `P`. -/
structure Forked (D : List Nat → Prop) (P C : Nat) (s : Mm) (g : Ghost) (s' : Mm) (g' : Ghost) : Prop where
  ram : s'.ramStart = s.ramStart
  parent : ∀ {l}, UserIx l → D l → Shares s (leafAt s P l) (leafAt s' P l)
  child : ∀ {l}, UserIx l → D l → Shares s (leafAt s P l) (leafAt s' C l)
  parent_same : ∀ {l}, UserIx l → ¬D l → leafAt s' P l = leafAt s P l
  child_same : ∀ {l}, UserIx l → ¬D l → leafAt s' C l = leafAt s C l
  keeps : Keeps (fun r => r ≠ P ∧ r ≠ C) s g s' g'
  data : ∀ {l}, UserIx l → has (leafAt s P l) pteV = true → has (leafAt s P l) pteU = true →
    s'.mem (ptePa (leafAt s P l)) = s.mem (ptePa (leafAt s P l))
  tables : ∀ {path t}, At g P path t → At g' P path t
  upper : ∀ {path t}, At g P path t → path.length < 2 → s'.mem t = s.mem t

section Forked
variable {D D' : List Nat → Prop} {P C : Nat} {s s' s'' : Mm} {g g' g'' : Ghost}

theorem Forked.of_keeps (hram : s'.ramStart = s.ramStart) (hP : g.role P = .tab 2 none)
    (hC : g.role C = .tab 2 none) (h : ∀ {R}, Keeps R s g s' g') (hat : ∀ {path t}, At g P path t → At g' P path t)
    (hup : ∀ {path t}, At g P path t → path.length < 2 → s'.mem t = s.mem t) :
    Forked (fun _ => False) P C s g s' g' where
  ram := hram
  parent _ hD := hD.elim
  child _ hD := hD.elim
  parent_same hl _ := (h (R := fun _ => True)).leaf trivial hP hl
  child_same hl _ := (h (R := fun _ => True)).leaf trivial hC hl
  keeps := h
  data hl hv hu := (h (R := fun _ => True)).data trivial hP hl hv hu
  tables := hat
  upper := hup

theorem Forked.congr (h : Forked D P C s g s' g') (hD : ∀ l, UserIx l → (D' l ↔ D l)) : Forked D' P C s g s' g' where
  ram := h.ram
  parent hl hd := h.parent hl ((hD _ hl).mp hd)
  child hl hd := h.child hl ((hD _ hl).mp hd)
  parent_same hl hd := h.parent_same hl fun x => hd ((hD _ hl).mpr x)
  child_same hl hd := h.child_same hl fun x => hd ((hD _ hl).mpr x)
  keeps := h.keeps
  data := h.data
  tables := h.tables
  upper := h.upper

/-- The parent's leaf at a page is the old one or a share of it. -/
theorem Forked.parent_cases (h : Forked D P C s g s' g') {l : List Nat} (hl : UserIx l) :
    leafAt s' P l = leafAt s P l ∨ Shares s (leafAt s P l) (leafAt s' P l) := by
  by_cases hD : D l
  · exact .inr (h.parent hl hD)
  · exact .inl (h.parent_same hl hD)

theorem Forked.shares {l : List Nat} {e : Word} (h : Forked D P C s g s' g') (hl : UserIx l)
    (h2 : Shares s' (leafAt s' P l) e) : Shares s (leafAt s P l) e := by
  have h2 := h2.of_ram h.ram
  rcases h.parent_cases hl with e | h1
  · rwa [e] at h2
  · exact h1.trans h2

theorem Forked.trans (h : Forked D P C s g s' g') (h' : Forked D' P C s' g' s'' g'') :
    Forked (fun l => D l ∨ D' l) P C s g s'' g'' where
  ram := h'.ram.trans h.ram
  parent := by
    intro l hl hd
    by_cases hD' : D' l
    · exact h.shares hl (h'.parent hl hD')
    · rw [h'.parent_same hl hD']
      exact h.parent hl (hd.resolve_right hD')
  child := by
    intro l hl hd
    by_cases hD' : D' l
    · exact h.shares hl (h'.child hl hD')
    · rw [h'.child_same hl hD']
      exact h.child hl (hd.resolve_right hD')
  parent_same := by
    intro l hl hd
    rw [h'.parent_same hl fun x => hd (.inr x), h.parent_same hl fun x => hd (.inl x)]
  child_same := by
    intro l hl hd
    rw [h'.child_same hl fun x => hd (.inr x), h.child_same hl fun x => hd (.inl x)]
  keeps := h.keeps.trans h'.keeps
  tables hat := h'.tables (h.tables hat)
  upper hat hlen := (h'.upper (h.tables hat) hlen).trans (h.upper hat hlen)
  data := by
    intro l hl hv hu
    rw [← h.data hl hv hu]
    rcases h.parent_cases hl with e | h1
    · have := h'.data hl (by rw [e]; exact hv) (by rw [e]; exact hu)
      rwa [e] at this
    · have := h'.data hl (h1.valid hv) ((h1.user hv).trans hu)
      rwa [(h1.of_valid hv).1] at this

end Forked

/-- The shape of the memory while tables of level `k` are cloned: tables stay, and those above the
level stay as they are. -/
structure CloneStep (p : Policy) (s : Mm) (g : Ghost) (s' : Mm) (g' : Ghost) (k : Nat) : Prop where
  inv : Inv p s' g'
  moves : Moves s g s' g'
  tab : ∀ {t k' up}, g.role t = .tab k' up → g'.role t = .tab k' up
  above : ∀ {t k' up}, g.role t = .tab k' up → k < k' → s'.mem t = s.mem t
  roots : SameRoots g g'

section CloneStep
variable {s s' s'' : Mm} {g g' g'' : Ghost} {p : Policy} {k : Nat}

theorem CloneStep.refl (h : Inv p s g) : CloneStep p s g s g k :=
  ⟨h, .refl, fun h => h, fun _ _ => rfl, .refl⟩

theorem CloneStep.trans (h : CloneStep p s g s' g' k) (h' : CloneStep p s' g' s'' g'' k) :
    CloneStep p s g s'' g'' k :=
  ⟨h'.inv, h.moves.trans h'.moves, fun ht => h'.tab (h.tab ht),
    fun ht hk => (h'.above (h.tab ht) hk).trans (h.above ht hk), h.roots.trans h'.roots⟩

theorem CloneStep.weaken {k' : Nat} (h : CloneStep p s g s' g' k) (hk : k ≤ k') : CloneStep p s g s' g' k' :=
  ⟨h.inv, h.moves, h.tab, fun ht hlt => h.above ht (Nat.lt_of_le_of_lt hk hlt), h.roots⟩

theorem CloneStep.at (h : CloneStep p s g s' g' k) {r t : Nat} {path : List Nat} (hat : At g r path t) :
    At g' r path t := hat.map fun _ _ _ => h.tab

end CloneStep

/-! ## One leaf -/

section Leaf
variable {s : Mm} {g : Ghost} {p : Policy} {P C q c idx i1 i2 : Nat} {e : Word}
variable {s' s1 : Mm} {t i f : Nat} {up : Option (Nat × Nat)} {w e1 : Word}

/-- Two slots that map a page count twice. -/
theorem two_le_leafRefs {t' i' : Nat} {up' : Option (Nat × Nat)} (h : PoolOk s g) (ht : g.role t = .tab 0 up)
    (ht' : g.role t' = .tab 0 up') (hi : i < 512) (hi' : i' < 512) (hne : (t, i) ≠ (t', i'))
    (hl : leafTo (s.mem t i) f = true) (hl' : leafTo (s.mem t' i') f = true) : 2 ≤ leafRefs s g f := by
  refine two_le_countWhere (a := (t, i)) ?_ ?_ hne ?_ ?_
  · exact Finset.mem_product.mpr ⟨(h.pool t).mpr (by simp [ht]), Finset.mem_range.mpr hi⟩
  · exact Finset.mem_product.mpr ⟨(h.pool t').mpr (by simp [ht']), Finset.mem_range.mpr hi'⟩
  · simp [ht, hl, Role.isLeafTable]
  · simp [ht', hl', Role.isLeafTable]

/-- A page that some leaf maps read-only is mapped writable by none. -/
theorem Inv.no_writable (h : Inv p s g) (hp : p.priv) (hf : g.role f = .page) (ht : g.role t = .tab 0 up)
    (hi : i < 512) (hl : leafTo (s.mem t i) f = true) (hw : has (s.mem t i) pteW = false) {t' up' i'}
    (ht' : g.role t' = .tab 0 up') (hi' : i' < 512) (hl' : leafTo (s.mem t' i') f = true) :
    has (s.mem t' i') pteW = false := by
  by_contra hw'
  rw [Bool.not_eq_false] at hw'
  obtain ⟨hv, hu, rfl⟩ := leafTo_iff.mp hl'
  have hone := h.count.priv hp ht' hi' hv hu hw' hf
  have hne : (t, i) ≠ (t', i') := by
    intro x
    cases x
    rw [hw] at hw'
    cases hw'
  have htwo := two_le_leafRefs h.pool ht ht' hi hi' hne hl hl'
  omega

/-- The parent's entry is marked. -/
theorem Inv.reflag (hp : p.Closed) (h : Inv p s g) (ht : g.role t = .tab 0 up) (hi : i < 512) (hkt : ¬p.kern t)
    (hv : has (s.mem t i) pteV = true) (hw : Shares s (s.mem t i) w) (hro : has w pteW = false) :
    Inv p (s.setEntry t i w) g := by
  have hwv := hw.valid hv
  have hwu := hw.user hv
  obtain ⟨hpa, hfl⟩ := hw.of_valid hv
  refine h.sameLeaf ht hi (fun hf => hkt (h.tabs.frozen hf).1) ⟨.inr hwv, fun _ => ?_, fun _ hu => ?_,
    fun _ hk => absurd hk hkt, fun _ _ _ hW => ?_⟩ (fun f _ => ?_)
  · rw [hfl]
    exact hp.shared _ _ (h.leaves.ok ht hi hv)
  · rw [hpa]
    exact h.leaves.user ht hi hv (hwu ▸ hu)
  · rw [hro] at hW
    cases hW
  · simp only [leafTo, hwv, hv, hwu, hpa]

/-- The child's entry takes over a reference to the page. -/
theorem Inv.putShared (h : Inv p s g) (ht : g.role t = .tab 0 up) (hi : i < 512) (hkt : ¬p.kern t)
    (h0 : s.mem t i = 0#64) (hl : leafTo w f = true) (hf : g.role f = .page) (he : 0 < g.ext f)
    (hok : p.leafOk (pteFlags w)) (hro : has w pteW = false) :
    Inv p (s.setEntry t i w) { g with ext := Function.update g.ext f (g.ext f - 1) } := by
  obtain ⟨hv, hu, hpa⟩ := leafTo_iff.mp hl
  refine h.setLeaf ht hi (fun hf => hkt (h.tabs.frozen hf).1) ⟨.inr hv, fun _ => hok, fun _ _ => .inl ?_,
    fun _ hk => absurd hk hkt, fun _ _ _ hW => ?_⟩ _ (fun f' _ => ?_) (fun f' hf' => ?_)
  · rw [hpa]
    exact hf
  · rw [hro] at hW
    cases hW
  · have hold : leafTo (s.mem t i) f' = false := by simp [h0, leafTo]
    rw [hold]
    by_cases e : f' = f
    · subst e
      rw [update_self, hl]
      simp only [Bool.toNat_true, Bool.toNat_false]
      omega
    · have : leafTo w f' = false :=
        Bool.eq_false_iff.mpr fun x => e ((leafTo_iff.mp x).2.2.symm.trans hpa)
      rw [update_of_ne e, this]
  · have e : f' ≠ f := by
      rintro rfl
      exact hf' hf
    rw [update_of_ne e]
    exact h.count.ext hf'

/-- The page of the parent's leaf, now read-only, gets a reference and the child an entry for it. -/
theorem Inv.shareLeaf (h : Inv p s g) {upq upc : Option (Nat × Nat)} (hq : g.role q = .tab 0 upq)
    (hc : g.role c = .tab 0 upc) (hkc : ¬p.kern c) (hidx : idx < 512) (hl : leafTo (s.mem q idx) f = true)
    (hro : has (s.mem q idx) pteW = false) (hf : g.role f = .page) (h0 : s.mem c idx = 0#64)
    (hw : leafTo w f = true) (hwro : has w pteW = false) (hok : p.leafOk (pteFlags w)) :
    Inv p (incrRef f s) (g.addExt f) ∧ Inv p ((incrRef f s).setEntry c idx w) g := by
  have hokf : FrameOk s f := h.pool.ok (by simp [hf])
  have h1 : Inv p (incrRef f s) (g.addExt f) :=
    h.incr hf fun hp t up i ht hi hto => h.no_writable hp hf hq hidx hl hro ht hi hto
  refine ⟨h1, ?_⟩
  have hmem : (incrRef f s).mem = s.mem := by rw [incrRef_eq hokf]; rfl
  have hext : (g.addExt f).ext f = g.ext f + 1 := update_self ..
  have h2 := h1.putShared (t := c) hc hidx hkc (by rw [hmem, h0]) hw hf
    (by rw [hext]; omega) hok hwro
  have hg : ({ g.addExt f with ext := Function.update (g.addExt f).ext f ((g.addExt f).ext f - 1) } : Ghost)
      = g := by
    simp [Ghost.addExt]
  rwa [hg] at h2

/-- What copying the leaf at `idx` of the parent's table has done. -/
structure LeafCloned (p : Policy) (s : Mm) (g : Ghost) (s' : Mm) (g' : Ghost) (P C c idx i1 i2 : Nat) :
    Prop where
  step : CloneStep p s g s' g' 0
  rest : ∀ j, j ≠ idx → s'.mem c j = s.mem c j
  free : g'.free = g.free
  forked : Forked (· = [idx, i1, i2]) P C s g s' g'

/-- A copy that leaves the parent's entry alone, or has marked it before. -/
theorem LeafCloned.of_views (h : Inv p s g) (h' : Inv p s' g) (hP : At g P [i1, i2] q) (hC : At g C [i1, i2] c)
    (hne : P ≠ C) (hram : s'.ramStart = s.ramStart) (hkr : s'.kernelRoot = s.kernelRoot) (he : s.mem q idx = e)
    (hmem1 : ∀ t, t ≠ q → s1.mem t = s.mem t) (hmem : s'.mem = (s1.setEntry c idx w).mem)
    (hleaf1 : ∀ {r l}, g.role r = .tab 2 none → UserIx l →
      leafAt s1 r l = if r = P ∧ l = [idx, i1, i2] then e1 else leafAt s r l)
    (hleaf : ∀ {r l}, g.role r = .tab 2 none → UserIx l →
      leafAt s' r l = if r = C ∧ l = [idx, i1, i2] then w else leafAt s1 r l) (hs1 : Shares s e e1)
    (hsw : Shares s e w) : LeafCloned p s g s' g P C c idx i1 i2 := by
  obtain ⟨upq, hq⟩ := hP.leaf_role h.tabs
  obtain ⟨upc, hc⟩ := hC.leaf_role h.tabs
  have hqc : c ≠ q := by
    rintro rfl
    exact hne (hP.unique hC).1
  have hPr := hP.root_role
  have hCr := hC.root_role
  have hleafP : leafAt s P [idx, i1, i2] = e := by rw [leafAt_of_at h hP, he]
  have hframe : ∀ t, t ≠ q → t ≠ c → s'.mem t = s.mem t := fun t hq hc => by
    rw [hmem, Mm.setEntry_mem_of_ne hc, hmem1 t hq]
  refine ⟨⟨h', ⟨hram, hkr, rfl, rfl, fun f hf => ?_⟩, fun ht => ht, fun {t k' up} ht hk => ?_, .refl⟩, fun j hj => ?_, rfl,
    ⟨hram, fun {l} hl hD => ?_, fun {l} hl hD => ?_, fun {l} hl hD => ?_, fun {l} hl hD => ?_,
      ⟨fun _ hr => hr, fun {r l} hR hr hl => ?_, fun {r l} _ hr hl hv hu => ?_⟩, fun {l} hl hv hu => ?_,
      fun hat => hat, fun {path t} hat hlen => ?_⟩⟩
  · have hpage := h.page_of_ext hf
    exact hframe f (ne_of_role hpage hq) (ne_of_role hpage hc)
  · exact hframe t (ne_of_role ht hq (by intro x; cases x; omega)) (ne_of_role ht hc (by intro x; cases x; omega))
  · rw [hmem, Mm.setEntry_mem_of_index_ne _ _ _ _ _ hj, hmem1 c hqc]
  · subst hD
    rw [hleaf hPr hl, if_neg fun x => hne x.1, hleaf1 hPr hl, if_pos ⟨rfl, rfl⟩, hleafP]
    exact hs1
  · subst hD
    rw [hleaf hCr hl, if_pos ⟨rfl, rfl⟩, hleafP]
    exact hsw
  · rw [hleaf hPr hl, if_neg fun x => hne x.1, hleaf1 hPr hl, if_neg fun x => hD x.2]
  · rw [hleaf hCr hl, if_neg fun x => hD x.2, hleaf1 hCr hl, if_neg fun x => hne x.1.symm]
  · rw [hleaf hr hl, if_neg fun x => hR.2 x.1, hleaf1 hr hl, if_neg fun x => hR.1 x.1]
  · have hpos := leafRefs_pos_of_leafAt h hr hl hv hu
    exact hframe _ (ne_of_leafRefs_pos h hq hpos) (ne_of_leafRefs_pos h hc hpos)
  · have hpos := leafRefs_pos_of_leafAt h hPr hl hv hu
    exact hframe _ (ne_of_leafRefs_pos h hq hpos) (ne_of_leafRefs_pos h hc hpos)
  · obtain ⟨k, up, ht, hk⟩ := hat.level h.tabs
    exact hframe t (ne_of_role ht hq (by intro x; cases x; omega)) (ne_of_role ht hc (by intro x; cases x; omega))

/-- The view of a space does not depend on the counts. -/
theorem leafAt_of_mem {s : Mm} (h : s'.mem = s.mem) (r : Nat) (l : List Nat) : leafAt s' r l = leafAt s r l := by
  unfold leafAt leafTable tableAt
  rw [h]

/-- The copy of a managed user page, once the parent's entry is read-only. -/
theorem LeafCloned.share (h : Inv p s g) (h1 : Inv p s1 g) (hP : At g P [i1, i2] q) (hC : At g C [i1, i2] c)
    (hne : P ≠ C) (hidx : idx < 512) (he : s.mem q idx = e) (he1 : s1.mem q idx = e1) (h0 : s1.mem c idx = 0#64)
    (hram : s1.ramStart = s.ramStart) (hkr : s1.kernelRoot = s.kernelRoot) (hmem1 : ∀ t, t ≠ q → s1.mem t = s.mem t)
    (hleaf1 : ∀ {r l}, g.role r = .tab 2 none → UserIx l →
      leafAt s1 r l = if r = P ∧ l = [idx, i1, i2] then e1 else leafAt s r l) (hs1 : Shares s e e1)
    (hsw : Shares s e w) (hl : leafTo e1 f = true) (hro : has e1 pteW = false) (hf : g.role f = .page)
    (hw : leafTo w f = true) (hwro : has w pteW = false) (hok : p.leafOk (pteFlags w)) :
    LeafCloned p s g ((incrRef f s1).setEntry c idx w) g P C c idx i1 i2 := by
  obtain ⟨upq, hq⟩ := hP.leaf_role h.tabs
  obtain ⟨upc, hc⟩ := hC.leaf_role h.tabs
  have hokf : FrameOk s1 f := h1.pool.ok (by simp [hf])
  obtain ⟨h2, h3⟩ := h1.shareLeaf hq hc (hC.not_kern h1.tabs) hidx (he1 ▸ hl) (he1 ▸ hro) hf h0 hw hwro hok
  have hmem : (incrRef f s1).mem = s1.mem := by rw [incrRef_eq hokf]; rfl
  have hrams : (incrRef f s1).ramStart = s1.ramStart ∧ (incrRef f s1).kernelRoot = s1.kernelRoot := by
    rw [incrRef_eq hokf]
    exact ⟨rfl, rfl⟩
  refine .of_views h h3 hP hC hne (hrams.1.trans hram) (hrams.2.trans hkr) he hmem1 ?_ hleaf1
    (fun {r l} hr hul => ?_) hs1 hsw
  · simp only [Mm.setEntry, hmem]
  · have hC' : At (g.addExt f) C [i1, i2] c := 
      hC.map fun t k up (ht : g.role t = _) => show (g.addExt f).role t = .tab k up from ht
    rw [leafAt_setLeaf h2 hC' hr hul, leafAt_of_mem hmem]

/-- `clone_level` at a leaf. -/
theorem cloneLeaf_wp (hp : p.Closed) (h : Inv p s g) (hP : At g P [i1, i2] q) (hC : At g C [i1, i2] c)
    (hne : P ≠ C) (hidx : idx < 512) (he : s.mem q idx = e) (hv : has e pteV = true)
    (h0 : s.mem c idx = 0#64) {E X : Mm → Prop} :
    (cloneLeaf q c idx e).wp (fun _ s' => ∃ g', LeafCloned p s g s' g' P C c idx i1 i2) E X s := by
  obtain ⟨upq, hq⟩ := hP.leaf_role h.tabs
  obtain ⟨upc, hc⟩ := hC.leaf_role h.tabs
  have hqc : c ≠ q := by
    rintro rfl
    exact hne (hP.unique hC).1
  have hok := h.leaves.ok hq hidx (he ▸ hv)
  rw [he] at hok
  have hview : ∀ {r l}, g.role r = .tab 2 none → UserIx l →
      leafAt s r l = if r = P ∧ l = [idx, i1, i2] then e else leafAt s r l := by
    intro r l _ _
    split
    · rename_i x
      rw [x.1, x.2, leafAt_of_at h hP, he]
    · rfl
  generalize hpa : ptePa e = pa
  generalize hm : s.isManagedPage pa = m
  -- the word both copies get
  generalize hfl : sharedFlags m (pteFlags e) = fl
  have hlow : LowFlags fl := by
    rw [← hfl]
    exact lowFlags_sharedFlags _ _
  have hsh : Shares s e (mkPte pa fl) := by
    rw [← hfl, ← hm, ← hpa]
    exact Shares.mkPte hv
  have hwv := hsh.valid hv
  have hwpa := (hsh.of_valid hv).1.trans hpa
  have hwu := hsh.user hv
  have hwok : p.leafOk (pteFlags (mkPte pa fl)) := by
    rw [pteFlags_mkPte _ hlow, ← hfl]
    exact hp.shared _ _ hok
  simp only [cloneLeaf, wp_bind, wp_get, wp_ite, wp_modify, hpa, hm, Bool.and_eq_true, pteFlags_u, pteFlags_w]
  refine ⟨fun hum => ?_, fun hum => ?_⟩
  · obtain ⟨hu, rfl⟩ := hum
    have hpage : g.role pa = .page := by
      have := h.leaves.user hq hidx (he ▸ hv) (he ▸ hu)
      rw [he, hpa] at this
      exact this.resolve_right fun x => by rw [hm] at x; cases x
    have hwto : leafTo (mkPte pa fl) pa = true := leafTo_iff.mpr ⟨hwv, hwu.trans hu, hwpa⟩
    have hfl' : (if has e pteW = true then pteFlags e &&& ~~~pteW ||| pteCow else pteFlags e) &&& flagMask |||
        pteV = fl := by
      rw [← hfl, sharedFlags, pteFlags_u, pteFlags_w, hu]
      simp only [Bool.true_and]
    rw [hfl']
    refine ⟨fun hW => ⟨g, ?_⟩, fun hW => ⟨g, ?_⟩⟩
    · have hwro : has (mkPte pa fl) pteW = false := by
        rw [mkPte_w, ← hfl]
        exact (sharedFlags_writable (by rw [pteFlags_u, pteFlags_w, hu, hW]; rfl)).1
      have h1 := h.reflag hp hq hidx (hP.not_kern h.tabs) (he ▸ hv) (he ▸ hsh) hwro
      exact .share h h1 hP hC hne hidx he (Mm.setEntry_mem_self ..)
        (by rw [Mm.setEntry_mem_of_ne hqc, h0]) rfl rfl
        (fun t ht => Mm.setEntry_mem_of_ne ht) (fun hr hl => leafAt_setLeaf h hP hr hl _)
        hsh hsh hwto hwro hpage hwto hwro hwok
    · have hW : has e pteW = false := by simpa using hW
      have hself : Shares s e e := .self hv (by rw [hW, Bool.and_false])
      have hwro : has (mkPte pa fl) pteW = false := by
        rw [mkPte_w, ← hfl, sharedFlags_other (lowFlags_pteFlags e) (by rw [pteFlags_v, hv])
          (by rw [pteFlags_w, hW, Bool.and_false]), pteFlags_w, hW]
      exact .share h h hP hC hne hidx he he h0 rfl rfl (fun _ _ => rfl) hview hself hsh
        (leafTo_iff.mpr ⟨hv, hu, hpa⟩) hW hpage hwto hwro hwok
  · -- the page is the kernel's or a device's: the entry is copied as it is
    have hum' : (has e pteU && m) = false := by simpa using hum
    have hfl' : pteFlags e &&& flagMask ||| pteV = fl := by
      rw [← hfl, sharedFlags, pteFlags_u, hum', if_neg Bool.noConfusion]
    rw [hfl']
    have hself : Shares s e e := .self hv (by rw [hpa, hm, hum', Bool.false_and])
    have hcopy : Inv p (s.setEntry c idx (mkPte pa fl)) g := by
      refine h.sameLeaf hc hidx (fun hf => hC.not_kern h.tabs (h.tabs.frozen hf).1) ⟨.inr hwv, fun _ => hwok,
        fun _ hu => .inr ?_, fun _ hk => absurd hk (hC.not_kern h.tabs), fun _ _ hu _ hpage => ?_⟩ (fun f hf => ?_)
      · rw [hwpa, hm]
        simpa [hwu ▸ hu] using hum'
      · rw [hwpa] at hpage
        have := (h.pool.ok (f := pa) (by simp [hpage])).managed
        rw [hm] at this
        rw [hwu] at hu
        exact absurd ⟨hu, this⟩ hum
      · have h1 : leafTo (s.mem c idx) f = false := by simp [h0, leafTo]
        rw [h1]
        refine Bool.eq_false_iff.mpr fun x => ?_
        obtain ⟨-, hu, e1⟩ := leafTo_iff.mp x
        have := (h.pool.ok (f := f) (by simp [hf])).managed
        rw [← e1, hwpa, hm] at this
        exact hum ⟨hwu ▸ hu, this⟩
    exact ⟨g, .of_views h hcopy hP hC hne rfl rfl he (fun _ _ => rfl) rfl hview
      (fun hr hl => leafAt_setLeaf h hC hr hl _) hself hsh⟩

end Leaf

/-! ## Tables -/

section Level
variable {s : Mm} {g : Ghost} {p : Policy} {P C q c idx k : Nat} {path : List Nat}
variable {s' : Mm} {t : Nat} {X : Mm → Prop} {cost : Nat → Nat} {g' : Ghost} {done pre post : List Nat}

theorem Mm.setEntry_of_eq {i : Nat} {w : Word} (h : s.mem t i = w) : s.setEntry t i w = s := by
  have hmem : (fun q j => if q = t ∧ j = i then w else s.mem q j) = s.mem := by
    funext q j
    split
    · rename_i e
      rw [e.1, e.2, h]
    · rfl
  simp only [Mm.setEntry, hmem]

/-- An empty slot of a table maps nothing. -/
theorem leafAt_of_empty {r : Nat} (h : Inv p s g) (hat : At g r path t) (h0 : s.mem t idx = 0#64) {l : List Nat}
    (hl : UserIx l) (hs : (idx :: path) <:+ l) : leafAt s r l = 0#64 := by
  obtain ⟨-, -, -, -⟩ := hl
  rename_i i0 i1 i2
  have hnone := tableAt_zero h0
  match path, hat with
  | [], .root _ =>
    obtain rfl : idx = i2 := by simpa [suffix_cons_iff] using hs
    simp [leafAt, leafTable, hnone]
  | [j2], hat =>
    obtain ⟨rfl, rfl⟩ : idx = i1 ∧ j2 = i2 := by simpa [suffix_cons_iff] using hs
    obtain ⟨r', hr', ht, -⟩ := hat.tableAt h
    cases hr'
    simp [leafAt, leafTable, hnone, ht]
  | [j1, j2], hat =>
    obtain ⟨rfl, rfl, rfl⟩ : idx = i0 ∧ j1 = i1 ∧ j2 = i2 := by simpa [suffix_cons_iff] using hs
    rw [leafAt_of_at h hat, h0]
  | _ :: _ :: _ :: _, hat =>
    have hlen := hs.length_le
    simp only [length_cons, length_nil] at hlen
    omega

/-- Where both spaces have nothing, nothing is left to do. -/
theorem Forked.of_empty (h : Inv p s g) (hP : At g P path q) (hC : At g C path c)
    (hq0 : s.mem q idx = 0#64) (hc0 : s.mem c idx = 0#64) : Forked ((idx :: path) <:+ ·) P C s g s g where
  ram := rfl
  parent hl hs := by
    have := leafAt_of_empty h hP hq0 hl hs
    exact .inl ⟨this, this⟩
  child hl hs := .inl ⟨leafAt_of_empty h hP hq0 hl hs, leafAt_of_empty h hC hc0 hl hs⟩
  parent_same _ _ := rfl
  child_same _ _ := rfl
  keeps := .refl
  data _ _ _ := rfl
  tables hat := hat
  upper _ _ := rfl

/-- The frames that cloning the entry `e` takes, `below` being those of the table it points to. -/
def cloneCost (below : Nat → Nat) (e : Word) : Nat := if e = 0#64 then 0 else 1 + below (ptePa e)

/-- The frames that `clone_level` takes for the table `q`. -/
def cloneNeed (s : Mm) : Nat → Nat → Nat
  | 0, _ => 0
  | level + 1, q => ((cloneRange (level + 1)).map fun i => cloneCost (cloneNeed s level) (s.mem q i)).sum

/-- The state of the loop of `clone_level` over the tables `q` and `c` at `path`. An entry takes
`cost` frames. -/
structure Cloning (p : Policy) (s : Mm) (g : Ghost) (s' : Mm) (g' : Ghost) (P C c k : Nat)
    (path : List Nat) (cost : Nat → Nat) (done : List Nat) : Prop where
  step : CloneStep p s g s' g' k
  empty : ∀ j < 512, (path = [] → 4 ≤ j) → j ∉ done → s'.mem c j = 0#64
  forked : Forked (fun l => ∃ j ∈ done, (j :: path) <:+ l) P C s g s' g'
  free : g.free.length ≤ g'.free.length + (done.map cost).sum

theorem Cloning.start (h : Inv p s g) (hP : At g P path q) (hC : At g C path c)
    (hz : ∀ j < 512, (path = [] → 4 ≤ j) → s.mem c j = 0#64) : Cloning p s g s g P C c k path cost [] := by
  refine ⟨.refl h, fun j hj hlow _ => hz j hj hlow, ?_, Nat.le_refl _⟩
  refine (Forked.of_keeps rfl hP.root_role hC.root_role .refl (fun hat => hat) (fun _ _ => rfl)).congr
    fun l _ => ?_
  simp

/-- One more entry has been cloned. -/
theorem Cloning.next {s'' : Mm} {g'' : Ghost} (h : Cloning p s g s' g' P C c k path cost done)
    (hstep : CloneStep p s' g' s'' g'' k) (hrest : ∀ j, j ≠ idx → s''.mem c j = s'.mem c j)
    (hfork : Forked ((idx :: path) <:+ ·) P C s' g' s'' g'') (hfree : g'.free.length ≤ g''.free.length + cost idx) :
    Cloning p s g s'' g'' P C c k path cost (done ++ [idx]) where
  step := h.step.trans hstep
  empty j hj hlow hnot := by
    rw [mem_append, mem_singleton, not_or] at hnot
    rw [hrest j hnot.2]
    exact h.empty j hj hlow hnot.1
  forked := by
    refine (h.forked.trans hfork).congr fun l _ => ⟨fun ⟨j, hj, hs⟩ => ?_, fun hd => ?_⟩
    · rcases mem_append.mp hj with hj | hj
      · exact .inl ⟨j, hj, hs⟩
      · rw [mem_singleton.mp hj] at hs
        exact .inr hs
    · rcases hd with ⟨j, hj, hs⟩ | hs
      · exact ⟨j, mem_append_left _ hj, hs⟩
      · exact ⟨idx, mem_append_right _ (mem_singleton_self _), hs⟩
  free := by
    have := h.free
    simp only [map_append, sum_append, map_cons, sum_cons]
    omega

theorem mem_cloneRange : idx ∈ cloneRange k ↔ idx < 512 ∧ (k = 2 → 4 ≤ idx) := by
  unfold cloneRange
  split
  · rw [mem_range'_1]
    omega
  · rw [mem_range]
    omega

/-- No index is visited twice. -/
theorem not_mem_of_split (h : pre ++ idx :: post = cloneRange k) : idx ∉ pre := by
  have hnd : (cloneRange k).Nodup := by
    unfold cloneRange
    split
    · exact nodup_range'
    · exact nodup_range
  rw [← h, nodup_append] at hnd
  exact fun hmem => hnd.2.2 idx hmem idx (.head _) rfl

/-- The loop visits every page below the tables. -/
theorem Cloning.all (hlen : path.length + k = 2) (h : Cloning p s g s' g' P C c k path cost (cloneRange k)) :
    Forked (path <:+ ·) P C s g s' g' := by
  refine h.forked.congr fun l hl => ⟨fun hs => ?_, fun ⟨j, _, hs⟩ => (suffix_cons j path).trans hs⟩
  obtain ⟨h0, h1, h4, h2⟩ := hl
  rename_i i0 i1 i2
  match path, hs with
  | [], _ => exact ⟨i2, mem_cloneRange.mpr ⟨h2, fun _ => h4⟩, [i0, i1], rfl⟩
  | [j2], hs =>
    obtain rfl : j2 = i2 := by simpa [suffix_cons_iff] using hs
    simp only [length_singleton] at hlen
    exact ⟨i1, mem_cloneRange.mpr ⟨h1, fun e => by omega⟩, [i0], rfl⟩
  | [j1, j2], hs =>
    obtain ⟨rfl, rfl⟩ : j1 = i1 ∧ j2 = i2 := by simpa [suffix_cons_iff] using hs
    simp only [length_cons] at hlen
    exact ⟨i0, mem_cloneRange.mpr ⟨h0, fun e => by omega⟩, suffix_refl _⟩
  | _ :: _ :: _ :: _, _ => simp only [length_cons] at hlen; omega

/-- Two states agree on what a clone of the table `q` of `P` needs if its tables are the same. -/
theorem cloneNeed_congr (h : Inv p s g) (hm : ∀ {path t}, At g P path t → path.length < 2 → s'.mem t = s.mem t)
    (hP : At g P path q) (hlen : path.length + k = 2) : cloneNeed s' k q = cloneNeed s k q := by
  induction k generalizing path q with
  | zero => rfl
  | succ k ih =>
    simp only [cloneNeed, hm hP (by omega)]
    congr 1
    refine map_congr_left fun i hi => ?_
    obtain ⟨hi, hlow⟩ := mem_cloneRange.mp hi
    unfold cloneCost
    split
    · rfl
    · rename_i h0
      have hlow' : path = [] → 4 ≤ i := by
        rintro rfl
        rw [length_nil] at hlen
        exact hlow (by omega)
      obtain ⟨q', he, hq'⟩ := child_of_slot h hP hlen hi hlow' h0
      rw [he, ptePa_tablePte_of (h.pool.ok (by simp [hq'])),
        ih (.down hP hq') (by rw [length_cons]; omega)]

/-- What a failed clone leaves: some of the pages have been shared. When every leaf looks like
one, fewer than `n` frames were free. -/
def PartlyForked (p : Policy) (s : Mm) (g : Ghost) (P C n : Nat) (s' : Mm) : Prop :=
  ∃ g' D, CloneStep p s g s' g' 2 ∧ Forked D P C s g s' g' ∧
    ((∀ fl, p.leafOk fl → isLeaf fl = true) → g.free.length < n)

/-- One round at level 0. An entry that is not a leaf there stops the machine. -/
theorem cloneEntry_zero_wp (hp : p.Closed) (hX : (∀ fl, p.leafOk fl → isLeaf fl = true) ∨ ∀ s, X s)
    (hP : At g P path q) (hC : At g C path c) (hne : P ≠ C) (hlen : path.length = 2) (hidx : idx < 512)
    (hnew : idx ∉ done) (hc : Cloning p s g s' g' P C c 0 path (fun _ => 0) done) {e : String} :
    (cloneEntry (fun _ _ => Cmd.die e) q c idx).wp
      (fun _ s'' => ∃ g'', Cloning p s g s'' g'' P C c 0 path (fun _ => 0) (done ++ [idx]))
      (PartlyForked p s g P C 0) X s' := by
  have h' := hc.step.inv
  have hP' := hc.step.at hP
  have hC' := hc.step.at hC
  have hc0 := hc.empty idx hidx (fun e => by rw [e] at hlen; cases hlen) hnew
  obtain ⟨k, up, hq, hk⟩ := hP'.level h'.tabs
  obtain rfl : k = 0 := by omega
  simp only [cloneEntry, wp_bind, wp_get, wp_ite, wp_modify, wp_die, wp_allocOr h'.pool]
  refine ⟨fun h0 => ?_, fun h0 => ?_⟩
  · rw [Mm.setEntry_of_eq hc0]
    exact ⟨g', hc.next (.refl h') (fun _ _ => rfl) (.of_empty h' hP' hC' h0 hc0) (Nat.le_refl _)⟩
  have hv := (h'.leaves.valid hq hidx).resolve_left h0
  have hleaf : (∀ fl, p.leafOk fl → isLeaf fl = true) → isLeaf (s'.mem q idx) = true := fun hleaf => by
    rw [← isLeaf_pteFlags]
    exact hleaf _ (h'.leaves.ok hq hidx hv)
  refine ⟨fun hl => ⟨fun _ => ?_, fun _ => ?_⟩, fun hl => ?_⟩
  · refine ⟨g', _, hc.step.weaken (Nat.zero_le _), hc.forked, fun hall => ?_⟩
    rw [hleaf hall] at hl
    cases hl
  · rcases hX with hall | hX
    · rw [hleaf hall] at hl
      cases hl
    · exact hX _
  · obtain ⟨i1, i2, rfl⟩ := List.length_eq_two.mp hlen
    refine wp_imp (cloneLeaf_wp hp h' hP' hC' hne hidx rfl hv hc0) fun _ s'' hd => ?_
    obtain ⟨g'', hd⟩ := hd
    refine ⟨g'', hc.next hd.step hd.rest (hd.forked.congr fun l hl => ?_) (by rw [hd.free]; exact Nat.le_refl _)⟩
    obtain ⟨-, -, -, -⟩ := hl
    exact ⟨fun hs => (hs.eq_of_length rfl).symm, fun e => e ▸ suffix_refl _⟩

/-- One round above level 0: a table of the parent gets a counterpart, which is then filled. -/
theorem cloneEntry_table_wp {below : Nat → Nat → Cmd Mm Unit} (h : Inv p s g) (hP : At g P path q)
    (hC : At g C path c) (hne : P ≠ C) (hlen : path.length + (k + 1) = 2) (hidx : idx < 512)
    (hlow : path = [] → 4 ≤ idx) (hsplit : pre ++ idx :: post = cloneRange (k + 1))
    (hbelow : ∀ {s g q c}, Inv p s g → At g P (idx :: path) q → At g C (idx :: path) c →
      (∀ j < 512, s.mem c j = 0#64) → (below q c).wp (fun _ s' => ∃ g', CloneStep p s g s' g' k ∧
        Forked ((idx :: path) <:+ ·) P C s g s' g' ∧ g.free.length ≤ g'.free.length + cloneNeed s k q)
        (PartlyForked p s g P C (cloneNeed s k q)) X s)
    (hc : Cloning p s g s' g' P C c (k + 1) path (fun i => cloneCost (cloneNeed s k) (s.mem q i)) pre) :
    (cloneEntry below q c idx).wp (fun _ s'' => ∃ g'', Cloning p s g s'' g'' P C c (k + 1) path
        (fun i => cloneCost (cloneNeed s k) (s.mem q i)) (pre ++ [idx]))
      (PartlyForked p s g P C (cloneNeed s (k + 1) q)) X s' := by
  have h' := hc.step.inv
  have hP' := hc.step.at hP
  have hC' := hc.step.at hC
  have hc0 := hc.empty idx hidx hlow (not_mem_of_split hsplit)
  obtain ⟨k', upc, hcr, hk'⟩ := hC'.level h'.tabs
  obtain rfl : k' = k + 1 := by omega
  have hmq : s'.mem q = s.mem q := hc.forked.upper hP (by omega)
  have htotal : cloneNeed s (k + 1) q = (pre.map fun i => cloneCost (cloneNeed s k) (s.mem q i)).sum +
      (cloneCost (cloneNeed s k) (s.mem q idx) + (post.map fun i => cloneCost (cloneNeed s k) (s.mem q i)).sum) := by
    simp only [cloneNeed, ← hsplit, map_append, sum_append, map_cons, sum_cons]
  have hfree := hc.free
  simp only [cloneEntry, wp_bind, wp_get, wp_ite, wp_modify, wp_allocOr h'.pool]
  refine ⟨fun h0 => ?_, fun h0 => ?_⟩
  · rw [Mm.setEntry_of_eq hc0]
    exact ⟨g', hc.next (.refl h') (fun _ _ => rfl) (.of_empty h' hP' hC' h0 hc0) (Nat.le_add_right _ _)⟩
  · obtain ⟨q', hm, hq'⟩ := child_of_slot h' hP' hlen hidx hlow h0
    have hokq : FrameOk s' q' := h'.pool.ok (by simp [hq'])
    have hcost : cloneCost (cloneNeed s k) (s.mem q idx) = 1 + cloneNeed s k q' := by
      rw [cloneCost, ← hmq, if_neg h0, hm, ptePa_tablePte_of hokq]
    rw [hm, tablePte_isLeaf, ptePa_tablePte_of hokq]
    refine ⟨fun _ => ⟨fun h0 => ⟨g', _, hc.step.weaken (by omega), hc.forked, fun _ => ?_⟩, fun hh => ?_⟩,
      absurd rfl⟩
    · rw [h'.pool.free_nil h0, length_nil] at hfree
      omega
    have hlow' : k = 1 → 4 ≤ idx ∨ ¬p.strict := fun e =>
      .inl (hlow (length_eq_zero_iff.mp (by omega)))
    obtain ⟨h1, hg1, hlen1, hz, hroots1⟩ := h'.grow hh hcr hidx hc0 (hC'.not_kern h'.tabs) hlow'
    have hnewtab : ((g'.alloc s'.head).toTable s'.head k (some (c, idx))).role s'.head =
        .tab k (some (c, idx)) := update_self ..
    have hrest1 : ∀ j, j ≠ idx → (s'.allocated.setEntry c idx (tablePte s'.head)).mem c j = s'.mem c j := by
      intro j hj
      rw [Mm.setEntry_mem_of_index_ne _ _ _ _ _ hj, (SameTables.alloc h'.pool hh).mem _ _ _ hcr]
    have hmem1 : ∀ {t k'' up}, g'.role t = .tab k'' up → t ≠ c →
        (s'.allocated.setEntry c idx (tablePte s'.head)).mem t = s'.mem t := by
      intro t k'' up ht hne
      rw [Mm.setEntry_mem_of_ne hne, (SameTables.alloc h'.pool hh).mem _ _ _ ht]
    generalize s'.allocated.setEntry c idx (tablePte s'.head) = s1 at *
    generalize (g'.alloc s'.head).toTable s'.head k (some (c, idx)) = g1 at *
    have hup1 : ∀ {path t}, At g' P path t → s1.mem t = s'.mem t := by
      intro path' t hat
      obtain ⟨k'', up, ht, -⟩ := hat.level h'.tabs
      refine hmem1 ht ?_
      rintro rfl
      exact hne (hat.unique hC').1
    have hneed : cloneNeed s1 k q' = cloneNeed s k q' := by
      have hl : (idx :: path).length + k = 2 := by rw [length_cons]; omega
      rw [cloneNeed_congr h' (fun hat _ => hup1 hat) (.down hP' hq') hl]
      -- the parent's table was there from the start
      obtain ⟨q0, hm0, hq0⟩ := child_of_slot h hP hlen hidx hlow (hmq ▸ h0)
      have hokq0 : FrameOk s q0 := h.pool.ok (by simp [hq0])
      obtain rfl : q0 = q' := by
        rw [← ptePa_tablePte_of hokq0, ← hm0, ← hmq, hm, ptePa_tablePte_of hokq]
      exact cloneNeed_congr h hc.forked.upper (.down hP hq0) hl
    have hstep1 : CloneStep p s' g' s1 g1 (k + 1) :=
      ⟨h1, hg1.moves h' h1, hg1.tab, fun ht hlt => hmem1 ht (ne_of_role ht hcr (by intro x; cases x; omega)), hroots1⟩
    have hfork1 := Forked.of_keeps hg1.ram hP'.root_role hC'.root_role hg1.keeps
      hg1.at (fun hat _ => hup1 hat)
    refine wp_mono (hbelow h1 (.down (hg1.at hP') (hg1.tab hq')) (.down (hg1.at hC') hnewtab) hz)
      (fun _ s2 hd => ?_) (fun s2 hd => ?_)
    · obtain ⟨g2, hstep2, hfork2, hfree2⟩ := hd
      refine ⟨g2, hc.next (hstep1.trans (hstep2.weaken (by omega))) (fun j hj => ?_) ?_ ?_⟩
      · rw [hstep2.above (hg1.tab hcr) (by omega), hrest1 j hj]
      · exact (hfork1.trans hfork2).congr fun l _ => ⟨.inr, fun x => x.resolve_left id⟩
      · rw [hcost]
        omega
    · obtain ⟨g2, D, hstep2, hfork2, hfree2⟩ := hd
      refine ⟨g2, _, (hc.step.weaken (by omega)).trans ((hstep1.weaken (by omega)).trans hstep2),
        hc.forked.trans (hfork1.trans hfork2), fun hall => ?_⟩
      have hfree2 := hfree2 hall
      omega

section
variable {X : Mm → Prop} (hp : p.Closed) (hX : (∀ fl, p.leafOk fl → isLeaf fl = true) ∨ ∀ s, X s) (hne : P ≠ C)
  (h : Inv p s g)
include hp hX hne h

/-- `clone_level`: everything below the tables at `path` is shared. -/
theorem cloneLevel_wp (hP : At g P path q) (hC : At g C path c) (hlen : path.length + k = 2)
    (hz : ∀ j < 512, (path = [] → 4 ≤ j) → s.mem c j = 0#64) : (cloneLevel k q c).wp
      (fun _ s' => ∃ g', CloneStep p s g s' g' k ∧ Forked (path <:+ ·) P C s g s' g' ∧
        g.free.length ≤ g'.free.length + cloneNeed s k q) (PartlyForked p s g P C (cloneNeed s k q)) X s := by
  induction k generalizing s g path q c with
  | zero =>
    refine wp_forEach (fun done s' => ∃ g', Cloning p s g s' g' P C c 0 path (fun _ => 0) done)
      ⟨g, .start h hP hC hz⟩ ?_ (fun s' ⟨g', hc⟩ => ⟨g', hc.step, hc.all hlen, ?_⟩)
    · intro pre idx post s' hsplit hI
      obtain ⟨g', hc⟩ := hI
      obtain ⟨hidx, -⟩ := mem_cloneRange.mp (Cmd.mem_of_split hsplit)
      exact cloneEntry_zero_wp hp hX hP hC hne (by omega) hidx (not_mem_of_split hsplit) hc
    · simpa [cloneNeed] using hc.free
  | succ k ih =>
    refine wp_forEach (fun done s' => ∃ g', Cloning p s g s' g' P C c (k + 1) path
        (fun i => cloneCost (cloneNeed s k) (s.mem q i)) done)
      ⟨g, .start h hP hC hz⟩ ?_ (fun s' ⟨g', hc⟩ => ⟨g', hc.step, hc.all hlen, hc.free⟩)
    intro pre idx post s' hsplit hI
    obtain ⟨g', hc⟩ := hI
    obtain ⟨hidx, hlow⟩ := mem_cloneRange.mp (Cmd.mem_of_split hsplit)
    refine cloneEntry_table_wp h hP hC hne hlen hidx (fun e => hlow ?_) hsplit ?_ hc
    · rw [e, length_nil] at hlen
      omega
    · intro s1 g1 q1 c1 h1 hP1 hC1 hz1
      exact ih h1 hP1 hC1 (by rw [length_cons]; omega) (fun j hj _ => hz1 j hj)

/-- `clone_user_space`: the child, whose user part was empty, has the parent's pages. -/
theorem cloneUserSpace_wp (hP : g.role P = .tab 2 none) (hC : g.role C = .tab 2 none)
    (hz : ∀ j, 4 ≤ j → j < 512 → s.mem C j = 0#64) : (cloneUserSpace P C).wp
      (fun _ s' => ∃ g', CloneStep p s g s' g' 2 ∧ Forked (fun _ => True) P C s g s' g' ∧
        g.free.length ≤ g'.free.length + cloneNeed s 2 P) (PartlyForked p s g P C (cloneNeed s 2 P)) X s := by
  refine wp_imp (cloneLevel_wp hp hX hne h (.root hP) (.root hC) rfl fun j hj h4 => hz j (h4 rfl) hj)
    fun _ s' hd => ?_
  obtain ⟨g', hstep, hfork, hfree⟩ := hd
  exact ⟨g', hstep, hfork.congr fun l _ => ⟨fun _ => nil_suffix, fun _ => trivial⟩, hfree⟩

end

end Level
end OpenV
