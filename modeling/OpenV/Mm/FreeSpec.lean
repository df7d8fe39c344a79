import OpenV.Mm.MapSpec

/- What unmapping and destroying do. A page loses one reference per leaf entry
   that goes; a table is freed once it is empty. Every function here works on a
   state in which no count is saturated (`Small`) and leaves such a state. -/
namespace OpenV

open Cmd Function Ghost

/-- No page has more references than its 16-bit count can say. -/
def Small (s : Mm) (g : Ghost) : Prop := ∀ f, g.role f = .page → g.ext f + leafRefs s g f ≤ 65535

/-- Pages and tables may have been freed; what is left is as it was. -/
structure Frees (s : Mm) (g : Ghost) (s' : Mm) (g' : Ghost) : Prop where
  ram : s'.ramStart = s.ramStart
  kernelRoot : s'.kernelRoot = s.kernelRoot
  pool : g'.pool = g.pool
  page : ∀ {f}, g'.role f = .page → g.role f = .page ∧ g'.ext f = g.ext f ∧ s'.mem f = s.mem f
  held : ∀ {f}, g.role f = .page → 0 < g.ext f → g'.role f = .page
  tab : ∀ {t k up}, g'.role t = .tab k up → ∃ up', g.role t = .tab k up'
  total : ∀ {f}, g'.role f = .page → leafRefs s' g' f ≤ leafRefs s g f

section Frees
variable {s s' s'' : Mm} {g g' g'' : Ghost}

theorem Frees.refl : Frees s g s g :=
  ⟨rfl, rfl, rfl, fun h => ⟨h, rfl, rfl⟩, fun h _ => h, fun h => ⟨_, h⟩, fun _ => Nat.le_refl _⟩

theorem Frees.trans (h : Frees s g s' g') (h' : Frees s' g' s'' g'') : Frees s g s'' g'' where
  ram := h'.ram.trans h.ram
  kernelRoot := h'.kernelRoot.trans h.kernelRoot
  pool := h'.pool.trans h.pool
  page hf := by
    obtain ⟨h1, h2, h3⟩ := h'.page hf
    obtain ⟨h1', h2', h3'⟩ := h.page h1
    exact ⟨h1', h2.trans h2', h3.trans h3'⟩
  held hf he := by
    have h1 := h.held hf he
    exact h'.held h1 (by rw [(h.page h1).2.1]; exact he)
  tab ht := by
    obtain ⟨up', ht'⟩ := h'.tab ht
    exact h.tab ht'
  total hf := Nat.le_trans (h'.total hf) (h.total (h'.page hf).1)

theorem Frees.small (h : Frees s g s' g') (hs : Small s g) : Small s' g' := by
  intro f hf
  obtain ⟨hf', he, -⟩ := h.page hf
  have h1 := hs f hf'
  have h2 := h.total hf
  omega

end Frees

/-! ## One leaf entry -/

section DropLeaf
variable {s : Mm} {g : Ghost} {p : Policy} {t i f : Nat} {up : Option (Nat × Nat)}

/-- Clearing a slot and giving a page up are independent. -/
theorem setEntry_decrRef (hok : FrameOk s f) (hne : t ≠ f) (w : Word) :
    (decrRefAndMaybeFree f s).setEntry t i w = decrRefAndMaybeFree f (s.setEntry t i w) := by
  have hok' : FrameOk (s.setEntry t i w) f := hok.of_ram rfl
  have hrefs : (s.setEntry t i w).refs f = s.refs f := rfl
  rw [decrRef_eq hok, decrRef_eq hok', hrefs]
  split
  · rfl
  · simp only [Mm.setEntry, Mm.pushFree, Mm.setFrame, Mm.setCount, Mm.mk.injEq, true_and]
    refine ⟨rfl, ?_⟩
    funext q j
    by_cases hq : q = f
    · subst hq
      simp [hne.symm]
    · simp [hq]

/-- A frame that is not freed keeps its content. -/
theorem drop_mem {f' : Nat} (hok : FrameOk s f) (h : ¬1 < s.refs f → f' ≠ f) :
    (decrRefAndMaybeFree f s).mem f' = s.mem f' := by
  rw [decrRef_eq hok]
  split
  · rfl
  · rename_i hlast
    exact Mm.setFrame_mem_of_ne (h hlast)

/-- Giving up a reference lowers the number of outside holders by one. -/
theorem Ghost.drop_ext {f : Nat} (h : Inv p s g) (hf : g.role f = .page) (he : 0 < g.ext f) :
    (g.drop s f).ext = Function.update g.ext f (g.ext f - 1) := by
  unfold drop
  split
  · rfl
  · have hc := (h.count.page hf).1
    have : g.ext f - 1 = 0 := by omega
    rw [this]

theorem Ghost.drop_page {f f' : Nat} (h : (g.drop s f).role f' = .page) : g.role f' = .page := by
  unfold drop at h
  split at h
  · exact h
  · by_cases e : f' = f
    · subst e
      simp at h
    · simpa only [update_of_ne e] using h

theorem leafTo_zero (f : Nat) : leafTo 0#64 f = false := by simp [leafTo]

theorem wordOk_zero : WordOk p s g t 0#64 := by
  have hv : ¬has 0#64 pteV = true := by simp [has_zero]
  exact ⟨.inl rfl, fun h => absurd h hv, fun h => absurd h hv, fun _ _ h => absurd h hv, fun _ h => absurd h hv⟩

/-- A leaf entry gives its page up: first to a holder outside the tables. -/
theorem Inv.takeLeaf (h : Inv p s g) (ht : g.role t = .tab 0 up) (hi : i < 512) (hfz : ¬p.frozen t)
    (hl : leafTo (s.mem t i) f = true) (hf : g.role f = .page) : Inv p (s.setEntry t i 0#64) (g.addExt f) := by
  refine h.setLeaf ht hi hfz wordOk_zero _ (fun f' _ => ?_) (fun f' hf' => ?_)
  · by_cases e : f' = f
    · subst e
      simp [leafTo_zero, hl]
    · have : leafTo (s.mem t i) f' = false := by
        rw [← Bool.not_eq_true]
        exact fun x => e ((leafTo_iff.mp x).2.2.symm.trans (leafTo_iff.mp hl).2.2)
      rw [update_of_ne e, this, leafTo_zero]
  · have e : f' ≠ f := by
      rintro rfl
      exact hf' hf
    rw [update_of_ne e]
    exact h.count.ext hf'

/-- Writing a word that maps the same pages changes no holder. -/
theorem Inv.sameLeaf (h : Inv p s g) (ht : g.role t = .tab 0 up) (hi : i < 512) (hfz : ¬p.frozen t)
    {w : Word} (hw : WordOk p s g t w) (hl : ∀ f, g.role f = .page → leafTo w f = leafTo (s.mem t i) f) :
    Inv p (s.setEntry t i w) g :=
  h.setLeaf ht hi hfz hw g.ext (fun f hf => by rw [hl f hf]) (fun _ hf => h.count.ext hf)

/-- What giving up a leaf entry does. -/
structure Dropped (p : Policy) (s : Mm) (g : Ghost) (s' : Mm) (g' : Ghost) (t i : Nat) : Prop where
  inv : Inv p s' g'
  frees : Frees s g s' g'
  role : ∀ t' k up, g'.role t' = .tab k up ↔ g.role t' = .tab k up
  zero : s'.mem t i = 0#64
  mem : ∀ {t' k up} j, g.role t' = .tab k up → ¬(t' = t ∧ j = i) → s'.mem t' j = s.mem t' j
  keeps : ∀ {R : Nat → Prop}, (∀ r, R r → ∀ j1 j2, 4 ≤ j2 → ¬At g r [j1, j2] t) → Keeps R s g s' g'

/-- Clearing a slot that maps no page. -/
theorem Dropped.clear (h : Inv p s g) (ht : g.role t = .tab 0 up) (hi : i < 512) (hfz : ¬p.frozen t)
    (hl : ∀ f, g.role f = .page → leafTo (s.mem t i) f = false) : Dropped p s g (s.setEntry t i 0#64) g t i := by
  refine ⟨h.sameLeaf ht hi hfz wordOk_zero fun f hf => by rw [leafTo_zero, hl f hf], ?_, fun _ _ _ => Iff.rfl,
    s.setEntry_mem_self _ _ _, fun {t' k up} j _ hne => if_neg hne,
    fun hR => Keeps.setLeaf h ht hR 0#64 g.ext⟩
  refine ⟨rfl, rfl, rfl, fun {f} hf => ⟨hf, rfl, ?_⟩, fun hf _ => hf, fun hx => ⟨_, hx⟩, fun {f} hf => ?_⟩
  · exact Mm.setEntry_mem_of_ne (ne_of_role hf ht)
  · have := leafRefs_setEntry (w := 0#64) h.pool ht hi g.ext f
    rw [hl f hf] at this
    exact Nat.le_of_eq this

/-- Clearing a slot that maps a page, which loses a reference. -/
theorem Dropped.page (h : Inv p s g) (hs : Small s g) (ht : g.role t = .tab 0 up) (hi : i < 512)
    (hfz : ¬p.frozen t) (hl : leafTo (s.mem t i) f = true) (hf : g.role f = .page) :
    Dropped p s g ((decrRefAndMaybeFree f s).setEntry t i 0#64) ((g.addExt f).drop (s.setEntry t i 0#64) f) t i := by
  have hok : FrameOk s f := h.pool.ok (by simp [hf])
  have htf : t ≠ f := ne_of_role ht hf
  rw [setEntry_decrRef hok htf]
  have h1 := h.takeLeaf ht hi hfz hl hf
  have hcount : leafRefs (s.setEntry t i 0#64) (g.addExt f) f + 1 = leafRefs s g f := by
    have := leafRefs_setEntry (w := 0#64) h.pool ht hi (Function.update g.ext f (g.ext f + 1)) f
    rw [hl] at this
    exact this
  have hext : (g.addExt f).ext f = g.ext f + 1 := update_self ..
  have hle : (g.addExt f).ext f + leafRefs (s.setEntry t i 0#64) (g.addExt f) f ≤ 65535 := by
    have := hs f hf
    omega
  have hpos : 0 < (g.addExt f).ext f := by omega
  have h2 := h1.drop hf hpos hle
  have hok1 : FrameOk (s.setEntry t i 0#64) f := hok.of_ram rfl
  have hsame := SameTables.drop (g := g.addExt f) hok1 hf
  have hrefs := (h1.count.page hf).1
  refine ⟨h2, ?_, hsame.role, ?_, fun {t' k up'} j ht' hne => ?_, fun hR => ?_⟩
  · refine ⟨by rw [hsame.ram]; rfl, by rw [hsame.kernelRoot]; rfl, hsame.pool, ?_, ?_,
      fun hx => ⟨_, (hsame.role _ _ _).mp hx⟩, ?_⟩
    · intro f' hf'
      have hpage := drop_page hf'
      refine ⟨hpage, ?_, ?_⟩
      · rw [drop_ext h1 hf hpos]
        by_cases e : f' = f
        · rw [e, update_self, hext]
          rfl
        · rw [update_of_ne e]
          exact update_of_ne e ..
      · rw [drop_mem hok1 fun hlast e => ?_]
        · exact Mm.setEntry_mem_of_ne (ne_of_role hpage ht)
        · rw [drop, if_neg hlast, e] at hf'
          simp at hf'
    · intro f' hf' hpos
      unfold drop
      split <;> rename_i hmany
      · exact hf'
      · have e : f' ≠ f := by
          rintro rfl
          omega
        simp only [update_of_ne e]
        exact hf'
    · intro f' _
      rw [leafRefs_frame hsame]
      have := leafRefs_setEntry (w := 0#64) h.pool ht hi (Function.update g.ext f (g.ext f + 1)) f'
      rw [leafTo_zero] at this
      exact Nat.le_of_add_right_le (Nat.le_of_eq this)
  · rw [hsame.mem t 0 up ht]
    exact s.setEntry_mem_self _ _ _
  · rw [hsame.mem t' k up' ht']
    exact if_neg hne
  · exact (Keeps.setLeaf h ht hR 0#64 _).trans (Keeps.drop h1 hf hpos hle)

/-- Giving up the leaf entry of a slot. -/
theorem dropLeaf_wp (h : Inv p s g) (hs : Small s g) (ht : g.role t = .tab 0 up) (hi : i < 512)
    (hfz : ¬p.frozen t) (hv : has (s.mem t i) pteV = true) {E X : Mm → Prop} :
    (dropLeaf t i (s.mem t i)).wp (fun _ s' => ∃ g', Dropped p s g s' g' t i) E X s := by
  have hu' : has (pteFlags (s.mem t i)) pteU = has (s.mem t i) pteU := has_pteFlags _
  simp only [dropLeaf, wp_bind, wp_ite, wp_modify, hu']
  refine ⟨fun hu => ?_, fun hu => ?_⟩
  · rcases h.leaves.user ht hi hv hu with hf | hf
    · exact ⟨_, Dropped.page h hs ht hi hfz (leafTo_iff.mpr ⟨hv, hu, rfl⟩) hf⟩
    · have hnop : decrRefAndMaybeFree (ptePa (s.mem t i)) s = s := by
        simp [decrRefAndMaybeFree, hf]
      rw [hnop]
      refine ⟨g, Dropped.clear h ht hi hfz fun f hpage => ?_⟩
      rw [← Bool.not_eq_true, leafTo_iff]
      rintro ⟨-, -, rfl⟩
      rw [(h.pool.ok (by simp [hpage])).managed] at hf
      exact Bool.noConfusion hf
  · refine ⟨g, Dropped.clear h ht hi hfz fun f _ => ?_⟩
    simp [leafTo, hu]

end DropLeaf

/-! ## `unmap_range` -/

section Unmap
variable {s : Mm} {g : Ghost} {p : Policy} {root : Nat}

/-- `s'` is reached from `s` by clearing leaf slots of `root`. -/
structure Unmapped (p : Policy) (s : Mm) (g : Ghost) (s' : Mm) (g' : Ghost) (root : Nat) : Prop where
  inv : Inv p s' g'
  frees : Frees s g s' g'
  role : ∀ t k up, g'.role t = .tab k up ↔ g.role t = .tab k up
  above : ∀ {t k up}, g.role t = .tab (k + 1) up → s'.mem t = s.mem t
  leaf : ∀ {t up} j, g.role t = .tab 0 up → s'.mem t j = s.mem t j ∨ s'.mem t j = 0#64
  keeps : Keeps (· ≠ root) s g s' g'

theorem Unmapped.refl (h : Inv p s g) : Unmapped p s g s g root :=
  ⟨h, .refl, fun _ _ _ => Iff.rfl, fun _ => rfl, fun _ _ => .inl rfl, .refl⟩

theorem Unmapped.trans {s' s'' : Mm} {g' g'' : Ghost} (h : Unmapped p s g s' g' root)
    (h' : Unmapped p s' g' s'' g'' root) : Unmapped p s g s'' g'' root where
  inv := h'.inv
  frees := h.frees.trans h'.frees
  role t k up := (h'.role t k up).trans (h.role t k up)
  above ht := (h'.above ((h.role _ _ _).mpr ht)).trans (h.above ht)
  leaf j ht := by
    rcases h'.leaf j ((h.role _ _ _).mpr ht) with e | e
    · rw [e]
      exact h.leaf j ht
    · exact .inr e
  keeps := h.keeps.trans h'.keeps

/-- Which addresses `unmap_range` may visit: those whose leaf table may change. -/
def MayUnmap (p : Policy) (s : Mm) (root va : Nat) : Prop :=
  ∀ t, leafTable s root (vpn va 2) (vpn va 1) = some t → has (s.mem t (vpn va 0)) pteV = true → ¬p.frozen t

/-- The loop of `unmap_range` only moves up, page by page or by a table's worth of pages. -/
def Ahead (va va' : Nat) : Prop := va % pageSize = 0 → va ≤ usizeMax → va ≤ va' ∧ va' % pageSize = 0

theorem ahead_pageDown (va d : Nat) : Ahead va (pageDown (saturatingAdd va d)) := by
  intro ha hle
  simp only [pageDown, saturatingAdd, pageSize] at *
  omega

theorem ahead_add (va : Nat) : Ahead va (va + pageSize) := by
  intro ha _
  simp only [pageSize] at *
  omega

/-- One round of `unmap_range`, also when it overflows the address. -/
theorem unmapStep_wp (h : Inv p s g) (hs : Small s g) (hr : g.role root = .tab 2 none) {va : Nat}
    (hmay : MayUnmap p s root va) :
    (unmapStep root va).wp (fun va' s' => Ahead va va' ∧ ∃ g', Unmapped p s g s' g' root) (fun _ => False)
      (fun s' => ∃ g', Unmapped p s g s' g' root) s := by
  have hsame : ∃ g', Unmapped p s g s g' root := ⟨g, .refl h⟩
  simp only [unmapStep, wp_bind, wp_get, wp_ite, wp_pure, wp_die]
  refine ⟨fun _ => ⟨ahead_pageDown _ _, hsame⟩, fun h2 => ⟨fun _ => ⟨ahead_pageDown _ _, hsame⟩, fun h1 => ?_⟩⟩
  simp only [not_or, Bool.not_eq_true] at h1 h2
  have ht2 : tableAt s root (vpn va 2) = some (ptePa (s.mem root (vpn va 2))) := by
    simp [tableAt, h2.1, h2.2]
  generalize hq : ptePa (s.mem root (vpn va 2)) = q at *
  have ht1 : tableAt s q (vpn va 1) = some (ptePa (s.mem q (vpn va 1))) := by
    simp [tableAt, h1.1, h1.2]
  generalize ht : ptePa (s.mem q (vpn va 1)) = t at *
  have htable : leafTable s root (vpn va 2) (vpn va 1) = some t := by rw [leafTable, ht2]; exact ht1
  obtain ⟨up, htr⟩ := role_of_leafTable h hr (vpn_lt va 2) (vpn_lt va 1) htable
  refine ⟨fun hv => ?_, fun _ => ⟨fun _ => hsame, fun _ => ⟨ahead_add va, hsame⟩⟩⟩
  refine wp_imp (dropLeaf_wp h hs htr (vpn_lt va 0) (hmay t htable hv) hv) (fun _ s' hd => ?_)
  obtain ⟨g', hd⟩ := hd
  have hdone : ∃ g', Unmapped p s g s' g' root := by
    refine ⟨g', hd.inv, hd.frees, hd.role, fun {t' k up'} ht' => ?_, fun {t' up'} j ht' => ?_, ?_⟩
    · funext j
      refine hd.mem j ht' fun e => ?_
      rw [e.1, htr] at ht'
      cases ht'
    · by_cases e : t' = t ∧ j = vpn va 0
      · obtain ⟨rfl, rfl⟩ := e
        exact .inr hd.zero
      · exact .inl (hd.mem j ht' e)
    · refine hd.keeps fun r hne j1 j2 h4 => ?_
      exact not_at_of_leafTable h hr (vpn_lt va 2) (vpn_lt va 1) htable (.inl hne) h4
  exact ⟨fun _ => hdone, fun _ => ⟨ahead_add va, hdone⟩⟩

/-- Any number of rounds. The addresses from `va` on have to be usable in every state the loop
meets. -/
theorem unmapLoop_wp {endVa : Nat} (hend : endVa ≤ usizeMax) : ∀ (n va : Nat) {s : Mm} {g : Ghost},
    Inv p s g → Small s g → g.role root = .tab 2 none → va % pageSize = 0 →
    (∀ va' s' g', Unmapped p s g s' g' root → va ≤ va' → va' < endVa → MayUnmap p s' root va') →
    (unmapLoop root endVa n va).wp (fun _ s' => ∃ g', Unmapped p s g s' g' root) (fun _ => False)
      (fun s' => ∃ g', Unmapped p s g s' g' root) s
  | 0, _, s, g, h, _, _, _, _ => by
    simp only [unmapLoop, wp_pure]
    exact ⟨g, .refl h⟩
  | n + 1, va, s, g, h, hs, hr, ha, hmay => by
    simp only [unmapLoop, wp_ite, wp_bind, wp_pure]
    refine ⟨fun hlt => ?_, fun _ => ⟨g, .refl h⟩⟩
    refine wp_imp (unmapStep_wp h hs hr (hmay va s g (.refl h) le_rfl hlt)) (fun va' s1 h1 => ?_)
    obtain ⟨hahead, g1, h1⟩ := h1
    obtain ⟨hle, ha'⟩ := hahead ha (by omega)
    refine wp_mono (unmapLoop_wp hend n va' h1.inv (h1.frees.small hs) ((h1.role _ _ _).mpr hr) ha'
      fun va'' s' g' h' hle' hlt' => hmay va'' s' g' (h1.trans h') (hle.trans hle') hlt') (fun _ s2 h2 => ?_)
      (fun _ hf => hf) (fun s2 h2 => ?_)
    · obtain ⟨g2, h2⟩ := h2
      exact ⟨g2, h1.trans h2⟩
    · obtain ⟨g2, h2⟩ := h2
      exact ⟨g2, h1.trans h2⟩

end Unmap

/-! ## `destroy_user_space` -/

section Destroy
variable {s : Mm} {g : Ghost} {p : Policy} {r t k : Nat} {path : List Nat}
variable {f idx : Nat} {E X : Mm → Prop} {s' s'' : Mm} {g' g'' : Ghost} {done : List Nat} {up : Option (Nat × Nat)}

theorem freePage_eq (hok : FrameOk s f) (h0 : s.refs f ≠ 0) : freePage f s = (.ok (), s.pageFreed f) := by
  have ha := hok.aligned
  have hi := hok.index_lt
  have hc : s.counts (s.pageIndex f) ≠ 0 := h0
  simp [freePage, pageSize, ha, Bind.bind, Cmd.bind, Cmd.get, Cmd.modify, hc, Nat.not_le.mpr hi, Mm.pageFreed]

theorem wp_freePage (hok : FrameOk s f) (h0 : s.refs f ≠ 0) {Q : Unit → Mm → Prop} :
    (freePage f).wp Q E X s ↔ Q () (s.pageFreed f) := by
  rw [wp_of_eq (freePage_eq hok h0)]
  exact Iff.rfl

theorem Removes.frees {x : Nat} (h : Removes s s' g g' x) (hkr : s'.kernelRoot = s.kernelRoot)
    (hmem : ∀ f, g.role f = .page → s'.mem f = s.mem f) : Frees s g s' g' :=
  ⟨h.ram, hkr, h.pool, fun hf => ⟨h.page.mp hf, by rw [h.ext], hmem _ (h.page.mp hf)⟩, fun hf _ => h.page.mpr hf,
    fun hx => (h.tab hx).2, fun _ => Nat.le_of_eq (leafRefs_removes h _)⟩

/-- What destroying the table at a path of `r` does to the rest. -/
structure Destroyed (p : Policy) (s : Mm) (g : Ghost) (s' : Mm) (g' : Ghost) (r k : Nat) : Prop where
  inv : Inv p s' g'
  frees : Frees s g s' g'
  above : ∀ {t k' up}, g.role t = .tab k' up → k < k' → g'.role t = .tab k' up ∧ s'.mem t = s.mem t
  keeps : Keeps (· ≠ r) s g s' g'

theorem Destroyed.refl (h : Inv p s g) : Destroyed p s g s g r k :=
  ⟨h, .refl, fun ht _ => ⟨ht, rfl⟩, .refl⟩

theorem Destroyed.trans (h : Destroyed p s g s' g' r k) (h' : Destroyed p s' g' s'' g'' r k) :
    Destroyed p s g s'' g'' r k where
  inv := h'.inv
  frees := h.frees.trans h'.frees
  above ht hk := by
    obtain ⟨h1, h2⟩ := h.above ht hk
    obtain ⟨h1', h2'⟩ := h'.above h1 hk
    exact ⟨h1', h2'.trans h2⟩
  keeps := h.keeps.trans h'.keeps

theorem Destroyed.weaken {k' : Nat} (h : Destroyed p s g s' g' r k) (hk : k ≤ k') : Destroyed p s g s' g' r k' :=
  ⟨h.inv, h.frees, fun ht hlt => h.above ht (Nat.lt_of_le_of_lt hk hlt), h.keeps⟩

/-- Tables above the level keep their paths. -/
theorem Destroyed.at_above (h : Inv p s g) (hd : Destroyed p s g s' g' r k) :
    ∀ {path t}, At g r path t → path.length + k < 2 → At g' r path t
  | _, _, .root hr, hlt => .root (hd.above hr (by simpa using hlt)).1
  | _, _, .down hat hq, hlt => by
    obtain ⟨k', up, hq', hlen⟩ := (At.down hat hq).level h.tabs
    rw [hq] at hq'
    cases hq'
    rw [List.length_cons] at hlt hlen
    exact .down (hd.at_above h hat (by omega)) (hd.above hq (by omega)).1

/-- So does a table of the level whose role stays. -/
theorem Destroyed.at_path (h : Inv p s g) (hd : Destroyed p s g s' g' r k) (hat : At g r path t)
    (hlen : path.length + k = 2) (hrole : g'.role t = g.role t) : At g' r path t := by
  cases hat with
  | root hr => exact .root (hrole.trans hr)
  | down hat hq =>
    rw [List.length_cons] at hlen
    exact .down (hd.at_above h hat (by omega)) (hrole.trans hq)

/-- The state of the loop over the entries of `t`: those of `done` are cleared. -/
structure Cleared (p : Policy) (s : Mm) (g : Ghost) (s' : Mm) (g' : Ghost) (r k t : Nat)
    (done : List Nat) : Prop where
  destroyed : Destroyed p s g s' g' r k
  role : g'.role t = g.role t
  zero : ∀ j ∈ done, s'.mem t j = 0#64

/-- `t` has been emptied. -/
structure Emptied (p : Policy) (s : Mm) (g : Ghost) (s' : Mm) (g' : Ghost) (r k t : Nat) : Prop where
  destroyed : Destroyed p s g s' g' r k
  role : g'.role t = g.role t
  zero : ∀ j < 512, s'.mem t j = 0#64

theorem Cleared.emptied (h : Cleared p s g s' g' r k t (List.range 512)) : Emptied p s g s' g' r k t := by
  exact ⟨h.destroyed, h.role, fun j hj => h.zero j (List.mem_range.mpr hj)⟩

/-- An empty entry needs no work. -/
theorem Cleared.skip (h : Cleared p s g s' g' r k t done) (h0 : s'.mem t idx = 0#64) :
    Cleared p s g s' g' r k t (done ++ [idx]) := by
  refine ⟨h.destroyed, h.role, fun j hj => ?_⟩
  rcases List.mem_append.mp hj with hj | hj
  · exact h.zero j hj
  · rw [List.mem_singleton.mp hj]
    exact h0

/-- A leaf entry of a level-0 table goes. -/
theorem Cleared.leaf (h : Cleared p s g s' g' r 0 t done) (ht : g'.role t = .tab 0 up) (hat : At g' r path t)
    (hd : Dropped p s' g' s'' g'' t idx) : Cleared p s g s'' g'' r 0 t (done ++ [idx]) := by
  have hstep : Destroyed p s' g' s'' g'' r 0 := by
    refine ⟨hd.inv, hd.frees, fun {u k' up'} hu hlt => ⟨(hd.role _ _ _).mpr hu, ?_⟩, ?_⟩
    · funext j
      refine hd.mem j hu fun e => ?_
      rw [e.1, ht] at hu
      cases hu
      omega
    · exact hd.keeps fun r' hne j1 j2 _ hat' => hne (hat'.unique hat).1
  refine ⟨h.destroyed.trans hstep, ?_, fun j hj => ?_⟩
  · rw [(hd.role _ _ _).mpr ht, ← h.role, ht]
  · by_cases e : j = idx
    · subst e
      exact hd.zero
    · rw [hd.mem j ht fun x => e x.2]
      rcases List.mem_append.mp hj with hj | hj
      · exact h.zero j hj
      · exact absurd (List.mem_singleton.mp hj) e

/-- A table that has been emptied is freed and taken out. -/
theorem Destroyed.unlink {q : Nat} (h : Inv p s g) (hq : g.role q = .tab k (some (t, idx)))
    (ht : g.role t = .tab (k + 1) up) (hkq : ¬p.kern q) (hkt : ¬p.kern t) (hz : ∀ j < 512, s.mem q j = 0#64) :
    Destroyed p s g ((s.pageFreed q).setEntry t idx 0#64) (g.freeTable q) r (k + 1) ∧
      (g.freeTable q).role t = g.role t ∧
      (∀ j, ((s.pageFreed q).setEntry t idx 0#64).mem t j = if j = idx then 0#64 else s.mem t j) := by
  have hrem := Removes.unlink h hq hz
  have htq : t ≠ q := ne_of_role ht hq
  refine ⟨⟨h.unlink hq hkq hkt hz, ?_, fun {u k' up'} hu hlt => ?_, .unlink h hq hkq hkt hz⟩, ?_, ?_⟩
  · refine hrem.frees rfl fun f hf' => ?_
    rw [Mm.setEntry_mem_of_ne (ne_of_role hf' ht), s.pageFreed_mem_of_ne (ne_of_role hf' hq)]
  · have hne : u ≠ t := ne_of_role hu ht (by intro e; cases e; omega)
    have hne' : u ≠ q := ne_of_role hu hq (by intro e; cases e; omega)
    exact ⟨freeTable_tab.mpr ⟨hne', hu⟩, by
      rw [Mm.setEntry_mem_of_ne hne, s.pageFreed_mem_of_ne hne']⟩
  · rw [ht]
    exact freeTable_tab.mpr ⟨htq, ht⟩
  · intro j
    split
    · rename_i e
      subst e
      exact Mm.setEntry_mem_self ..
    · rename_i e
      rw [Mm.setEntry_mem_of_index_ne _ _ _ _ _ e, s.pageFreed_mem_of_ne htq]

/-- One round at a table above level 0: the table below, if there is one, is destroyed and freed. -/
theorem destroyEntry_table_wp {below : Nat → Cmd Mm Unit} (h : Inv p s g) (hs : Small s g) (hat : At g r path t)
    (hlen : path.length + (k + 1) = 2) (hlow : path = [] → 4 ≤ idx) (hidx : idx < 512)
    (hbelow : ∀ {s g q}, Inv p s g → Small s g → At g r (idx :: path) q →
      (below q).wp (fun _ s' => ∃ g', Emptied p s g s' g' r k q) (fun _ => False) (fun _ => False) s)
    (hc : Cleared p s g s' g' r (k + 1) t done) : (destroyEntry below t idx).wp
      (fun _ s'' => ∃ g'', Cleared p s g s'' g'' r (k + 1) t (done ++ [idx])) (fun _ => False)
      (fun _ => False) s' := by
  have h' := hc.destroyed.inv
  have hat' := hc.destroyed.at_path h hat hlen hc.role
  obtain ⟨k', up, ht, hk'⟩ := hat'.level h'.tabs
  obtain rfl : k' = k + 1 := by omega
  simp only [destroyEntry, wp_bind, wp_get, wp_ite, wp_pure, wp_modify]
  refine ⟨fun h0 => ⟨g', hc.skip h0⟩, fun h0 => ?_⟩
  obtain ⟨q, hm, hq⟩ := child_of_slot h' hat' hlen hidx hlow h0
  have hokq : FrameOk s' q := h'.pool.ok (by simp [hq])
  rw [hm, tablePte_isLeaf, ptePa_tablePte_of hokq]
  refine ⟨Bool.noConfusion, fun _ => ?_⟩
  refine wp_imp (hbelow h' (hc.destroyed.frees.small hs) (.down hat' hq)) (fun _ s1 h1 => ?_)
  obtain ⟨g1, h1⟩ := h1
  have hinv1 := h1.destroyed.inv
  have hq1 : g1.role q = .tab k (some (t, idx)) := h1.role.trans hq
  obtain ⟨ht1, hmt1⟩ := h1.destroyed.above ht (by omega)
  have hat1 := h1.destroyed.at_above h' hat' (by omega)
  have hok1 : FrameOk s1 q := hinv1.pool.ok (by simp [hq1])
  rw [wp_freePage hok1 (by rw [hinv1.count.tab hq1]; exact Nat.one_ne_zero)]
  obtain ⟨hd, hrole, hmem⟩ := Destroyed.unlink hinv1 hq1 ht1
    ((At.down hat1 hq1).not_kern hinv1.tabs) (hat1.not_kern hinv1.tabs) h1.zero
  refine ⟨_, (hc.destroyed.trans (h1.destroyed.weaken (by omega))).trans hd, ?_, fun j hj => ?_⟩
  · rw [hrole, ht1, ← ht, hc.role]
  · rw [hmem]
    split
    · rfl
    · rename_i e
      rw [hmt1]
      rcases List.mem_append.mp hj with hj | hj
      · exact hc.zero j hj
      · exact absurd (List.mem_singleton.mp hj) e

theorem isLeaf_pteFlags (e : Word) : isLeaf (pteFlags e) = isLeaf e := by
  have hr : has (pteFlags e) pteR = has e pteR := has_pteFlags e
  have hx : has (pteFlags e) pteX = has e pteX := has_pteFlags e
  rw [isLeaf_eq, isLeaf_eq, hr, hx]

section
variable (hleaf : ∀ fl, p.leafOk fl → isLeaf fl = true) (h : Inv p s g) (hs : Small s g) (hat : At g r path t)
include hleaf h hs hat

/-- `destroy_level` at level 0. The flags of every leaf have to say that it is one. -/
theorem destroyLevel_zero_wp (hlen : path.length + 0 = 2) :
    (destroyLevel 0 t).wp (fun _ s' => ∃ g', Emptied p s g s' g' r 0 t) (fun _ => False) (fun _ => False) s := by
  refine wp_forEach (fun done s' => ∃ g', Cleared p s g s' g' r 0 t done)
    ⟨g, .refl h, rfl, fun _ hj => absurd hj List.not_mem_nil⟩ ?_ (fun s' ⟨g', hc⟩ => ⟨g', hc.emptied⟩)
  intro pre idx post s' hsplit hI
  obtain ⟨g', hc⟩ := hI
  have hidx := List.mem_range.mp (Cmd.mem_of_split hsplit)
  have h' := hc.destroyed.inv
  have hat' := hc.destroyed.at_path h hat hlen hc.role
  obtain ⟨k', up, ht, hk'⟩ := hat'.level h'.tabs
  obtain rfl : k' = 0 := by omega
  simp only [destroyEntry, wp_bind, wp_get, wp_ite, wp_pure]
  refine ⟨fun h0 => ⟨g', hc.skip h0⟩, fun h0 => ?_⟩
  have hv := (h'.leaves.valid ht hidx).resolve_left h0
  have hl : isLeaf (s'.mem t idx) = true := by
    rw [← isLeaf_pteFlags]
    exact hleaf _ (h'.leaves.ok ht hidx hv)
  refine ⟨fun _ => ?_, absurd hl⟩
  have hfz : ¬p.frozen t := fun hf => hat'.not_kern h'.tabs (h'.tabs.frozen hf).1
  refine wp_imp (dropLeaf_wp h' (hc.destroyed.frees.small hs) ht hidx hfz hv) (fun _ s'' hd => ?_)
  obtain ⟨g'', hd⟩ := hd
  exact ⟨g'', hc.leaf ht hat' hd⟩

/-- `destroy_level` empties the table it is given. -/
theorem destroyLevel_wp (hlen : path.length + k = 2) (hk : k < 2) :
    (destroyLevel k t).wp (fun _ s' => ∃ g', Emptied p s g s' g' r k t) (fun _ => False) (fun _ => False) s := by
  induction k generalizing s g path t with
  | zero => exact destroyLevel_zero_wp hleaf h hs hat hlen
  | succ k ih =>
    refine wp_forEach (fun done s' => ∃ g', Cleared p s g s' g' r (k + 1) t done)
      ⟨g, .refl h, rfl, fun _ hj => absurd hj List.not_mem_nil⟩ ?_ (fun s' ⟨g', hc⟩ => ⟨g', hc.emptied⟩)
    intro pre idx post s' hsplit hI
    obtain ⟨g', hc⟩ := hI
    refine destroyEntry_table_wp h hs hat hlen ?_ (List.mem_range.mp (Cmd.mem_of_split hsplit)) ?_ hc
    · intro e
      rw [e, List.length_nil] at hlen
      omega
    · intro s1 g1 q h1 hs1 hq
      exact ih h1 hs1 hq (by rw [List.length_cons]; omega) (by omega)

end

/-- The space of `r` is gone. -/
structure Gone (p : Policy) (s : Mm) (g : Ghost) (s' : Mm) (g' : Ghost) (r : Nat) : Prop where
  inv : Inv p s' g'
  frees : Frees s g s' g'
  root : g'.role r = .free
  keeps : Keeps (· ≠ r) s g s' g'

/-- A root without user entries is freed. -/
theorem freePage_root_wp (h : Inv p s g) (hr : g.role r = .tab 2 none)
    (hz : ∀ j, 4 ≤ j → j < 512 → s.mem r j = 0#64) :
    (freePage r).wp (fun _ s' => ∃ g', Gone p s g s' g' r) E X s := by
  have hok : FrameOk s r := h.pool.ok (by simp [hr])
  have hrem := Removes.freeRoot h hr
  rw [wp_freePage hok (by rw [h.count.tab hr]; exact Nat.one_ne_zero)]
  refine ⟨_, h.freeRoot hr hz, ?_, freeRoot_role_self, Keeps.freeRoot h hr hz⟩
  exact hrem.frees rfl fun f hf => s.pageFreed_mem_of_ne (ne_of_role hf hr)

/-- `destroy_user_space` frees the root, keeps every other space, and never fails. -/
theorem destroyUserSpace_wp (hleaf : ∀ fl, p.leafOk fl → isLeaf fl = true) (h : Inv p s g) (hs : Small s g)
    (hr : g.role r = .tab 2 none) : (destroyUserSpace r).wp (fun _ s' => ∃ g', Gone p s g s' g' r) E X s := by
  simp only [destroyUserSpace, wp_bind]
  refine wp_forEach
    (fun done s' => ∃ g', Cleared p s g s' g' r 2 r (done.filter (4 ≤ ·))) ⟨g, .refl h, rfl, by simp⟩ ?_ ?_
  · intro pre idx post s' hsplit hI
    obtain ⟨g', hc⟩ := hI
    simp only [wp_ite, wp_pure, List.filter_append]
    refine ⟨fun hlt => ?_, fun hge => ?_⟩
    · have : [idx].filter (4 ≤ ·) = [] := by simp [hlt]
      rw [this, List.append_nil]
      exact ⟨g', hc⟩
    · have hge : 4 ≤ idx := Nat.not_lt.mp hge
      have : [idx].filter (4 ≤ ·) = [idx] := by simp [hge]
      rw [this]
      refine wp_mono (destroyEntry_table_wp h hs (.root hr) rfl (fun _ => hge)
        (List.mem_range.mp (Cmd.mem_of_split hsplit)) ?_ hc) (fun _ _ hd => hd) (fun _ he => he.elim)
      intro s1 g1 q h1 hs1 hq
      exact destroyLevel_wp hleaf h1 hs1 hq rfl (by decide)
  · intro s' hI
    obtain ⟨g', hc⟩ := hI
    have hz : ∀ j, 4 ≤ j → j < 512 → s'.mem r j = 0#64 := fun j h4 hj => by
      refine hc.zero j (List.mem_filter.mpr ⟨List.mem_range.mpr hj, ?_⟩)
      exact decide_eq_true h4
    refine wp_imp (freePage_root_wp hc.destroyed.inv (hc.role.trans hr) hz) fun _ s'' hd => ?_
    obtain ⟨g'', hd⟩ := hd
    exact ⟨g'', hd.inv, hc.destroyed.frees.trans hd.frees, hd.root, hc.destroyed.keeps.trans hd.keeps⟩

/-- `destroy_user_space` of a space without user entries, whatever its leaves would look like. -/
theorem destroyUserSpace_empty_wp (h : Inv p s g) (hr : g.role r = .tab 2 none)
    (hz : ∀ j, 4 ≤ j → j < 512 → s.mem r j = 0#64) :
    (destroyUserSpace r).wp (fun _ s' => ∃ g', Gone p s g s' g' r) E X s := by
  simp only [destroyUserSpace, wp_bind]
  refine wp_forEach (fun _ s' => s' = s) rfl ?_ ?_
  · rintro pre idx post _ hsplit rfl
    simp only [destroyEntry, wp_ite, wp_pure, wp_bind, wp_get]
    have hidx : idx < 512 := List.mem_range.mp (Cmd.mem_of_split hsplit)
    exact ⟨fun _ => trivial, fun hge => ⟨fun _ => trivial, fun hne => absurd (hz idx (Nat.not_lt.mp hge) hidx) hne⟩⟩
  · rintro _ rfl
    exact freePage_root_wp h hr hz

end Destroy
end OpenV
