import OpenV.Mm.LeafSteps

/- The steps that make and unmake page tables: a fresh zeroed page is hung into
   an empty slot or becomes a root, an empty table is taken out of its slot and
   freed, a root is freed. -/
namespace OpenV

open Function Ghost Role

/-- The page `f` becomes a table of level `k`. -/
def Ghost.toTable (g : Ghost) (f k : Nat) (up : Option (Nat × Nat)) : Ghost :=
  { g with role := update g.role f (.tab k up), ext := update g.ext f 0 }

section Link
variable {s : Mm} {g : Ghost} {p : Policy} {t k i f : Nat} {up : Option (Nat × Nat)}

/-- A page with one holder outside the tables, and unmapped. -/
structure Fresh (s : Mm) (g : Ghost) (f : Nat) : Prop where
  role : g.role f = .page
  ext : g.ext f = 1
  refs : leafRefs s g f = 0

theorem SlotOk.eq_zero {j : Nat} (h : SlotOk s g t k up j) (hr : TabOk p s g)
    (hv : has (s.mem t j) pteV = false) : s.mem t j = 0#64 := by
  cases h with
  | empty h0 => exact h0
  | child q h0 _ => rw [h0, tablePte_v] at hv; exact Bool.noConfusion hv
  | kernel hk hi h0 h1 =>
    obtain ⟨q, hq, -⟩ := hr.root hi h0
    rw [h1, hq, tablePte_v] at hv
    exact Bool.noConfusion hv
  | mega _ _ hM => rw [hM.1] at hv; exact Bool.noConfusion hv

/-- `s'` is `s` as far as pages and level-0 tables go, and `f` is empty if it is to be one. -/
structure SameLeaves (s s' : Mm) (g : Ghost) (f k : Nat) : Prop where
  ram : s'.ramStart = s.ramStart
  counts : s'.counts = s.counts
  head : s'.head = s.head
  free : ∀ f', g.role f' = .free → s'.mem f' = s.mem f'
  leaf : ∀ t up, g.role t = .tab 0 up → s'.mem t = s.mem t
  zero : k = 0 → ∀ j < 512, s'.mem f j = 0#64

section ToTable
variable {s' : Mm} {up' : Option (Nat × Nat)}
variable {t' k' : Nat} {up'' : Option (Nat × Nat)}

theorem Ghost.toTable_old (hf : g.role f = .page) (hr : g.role t' = .tab k' up'') :
    (g.toTable f k up').role t' = .tab k' up'' := by
  simp only [toTable, update_of_ne (ne_of_role hr hf), hr]

theorem Ghost.toTable_new (hr : (g.toTable f k up').role t' = .tab k' up'') :
    t' = f ∧ k' = k ∧ up'' = up' ∨ g.role t' = .tab k' up'' := by
  by_cases e : t' = f
  · subst e
    simp only [toTable, update_self] at hr
    cases hr
    exact .inl ⟨rfl, rfl, rfl⟩
  · simp only [toTable, update_of_ne e] at hr
    exact .inr hr

/-- A fresh table adds no leaf. -/
theorem leafRefs_toTable (hf : g.role f = .page) (e : SameLeaves s s' g f k) (f' : Nat) :
    leafRefs s' (g.toTable f k up') f' = leafRefs s g f' := by
  refine countWhere_congr fun x hx => ?_
  obtain ⟨t', j⟩ := x
  have hj : j < 512 := Finset.mem_range.mp (Finset.mem_product.mp hx).2
  by_cases ef : t' = f
  · subst ef
    cases k with
    | zero => simp [hf, e.zero rfl j hj, leafTo, isLeafTable]
    | succ k => simp [hf, toTable, isLeafTable]
  · simp only [toTable, update_of_ne ef]
    cases hr : (g.role t').isLeafTable with
    | false => rfl
    | true =>
      obtain ⟨up, hup⟩ := isLeafTable_iff.mp hr
      rw [e.leaf _ _ hup]

theorem PoolOk.toTable (h : PoolOk s g) (hf : g.role f = .page) (e : SameLeaves s s' g f k) :
    PoolOk s' (g.toTable f k up') := by
  refine h.frame_mem e.ram e.head e.free rfl rfl (fun f' => ?_) (fun f' => ?_)
  all_goals
    by_cases e : f' = f
    · subst e
      simp [toTable, hf]
    · simp only [Ghost.toTable, update_of_ne e]

theorem LeafOk.toTable (h : Inv p s g) (hf : Fresh s g f) (e : SameLeaves s s' g f k) :
    LeafOk p s' (g.toTable f k up') := by
  refine leafOk_iff.mpr fun {t' up'' j} hr hj => ?_
  rcases toTable_new hr with ⟨rfl, hk, -⟩ | hr'
  · rw [e.zero hk.symm j hj]
    exact .zero
  · rw [e.leaf _ _ hr']
    refine (leafOk_iff.mp h.leaves hr' hj).map e.ram fun hv hu hto => ?_
    have hne : ptePa (s.mem t' j) ≠ f := fun ef => by
      have hpos := (leafRefs_pos h.pool).mpr ⟨t', _, j, hr', hj, leafTo_iff.mpr ⟨hv, hu, ef⟩⟩
      rw [hf.refs] at hpos
      omega
    simp only [Ghost.toTable, update_of_ne hne, hto]

theorem CountOk.toTable (h : Inv p s g) (hf : Fresh s g f) (e : SameLeaves s s' g f k) :
    CountOk p s' (g.toTable f k up') := by
  have hrefs : ∀ f', s'.refs f' = s.refs f' := fun f' => by
    simp only [Mm.refs, Mm.pageIndex, e.counts, e.ram]
  refine ⟨fun {f'} hr => ?_, fun {f' k' up''} hr => ?_, fun {f'} hr => ?_, fun {f'} hr => ?_,
    fun hp {t' up'' j} hr hj => ?_⟩
  · by_cases ef : f' = f
    · subst ef
      simp [Ghost.toTable] at hr
    · simp only [Ghost.toTable, update_of_ne ef] at hr
      rw [hrefs]
      exact h.count.free hr
  · rw [hrefs]
    rcases Ghost.toTable_new hr with ⟨rfl, -, -⟩ | hr'
    · rw [(h.count.page hf.role).1, hf.ext, hf.refs]
      rfl
    · exact h.count.tab hr'
  · rw [hrefs, leafRefs_toTable hf.role e]
    by_cases ef : f' = f
    · subst ef
      simp [Ghost.toTable] at hr
    · simp only [Ghost.toTable, update_of_ne ef] at hr ⊢
      exact h.count.page hr
  · by_cases ef : f' = f
    · subst ef
      simp [Ghost.toTable]
    · simp only [Ghost.toTable, update_of_ne ef] at hr ⊢
      exact h.count.ext hr
  · rcases Ghost.toTable_new hr with ⟨rfl, hk, -⟩ | hr'
    · intro hv
      rw [e.zero hk.symm j hj] at hv
      exact Bool.noConfusion hv
    · rw [e.leaf _ _ hr', leafRefs_toTable hf.role e]
      intro hv hu hw hpage
      by_cases ef : ptePa (s.mem t' j) = f
      · rw [ef] at hpage
        simp [Ghost.toTable] at hpage
      · simp only [Ghost.toTable, update_of_ne ef] at hpage ⊢
        exact h.count.priv hp hr' hj hv hu hw hpage

end ToTable

theorem TabOk.link (h : TabOk p s g) (ht : g.role t = .tab (k + 1) up) (hi : i < 512)
    (h0 : s.mem t i = 0#64) (hk : ¬p.kern t) (hlow : k = 1 → 4 ≤ i ∨ ¬p.strict)
    (hf : g.role f = .page) (hz : ∀ j < 512, s.mem f j = 0#64) :
    TabOk p (s.setEntry t i (tablePte f)) (g.toTable f k (some (t, i))) := by
  have hold : ∀ {t' k' up'}, g.role t' = .tab k' up' →
      (g.toTable f k (some (t, i))).role t' = .tab k' up' := toTable_old hf
  have hself : (g.toTable f k (some (t, i))).role f = .tab k (some (t, i)) := update_self ..
  have hft : f ≠ t := ne_of_role hf ht
  have hmf : (s.setEntry t i (tablePte f)).mem f = s.mem f := Mm.setEntry_mem_of_ne hft
  have hroot : k = 1 → i < 4 → s.kernelRoot i = 0#64 := by
    intro hk1 hi4
    by_contra hne
    subst hk1
    rw [h.low ht hi4 (.inr hne)] at h0
    exact hne h0
  refine ⟨fun {t' k' up'} hr => ?_, fun {t' k' up' j} hr hj => ?_, fun {t' up' j} hr hj hs => ?_,
    fun {q k' t' j} hr => ?_, fun {j} hj hne => ?_, fun {t'} hk' => ?_, fun hs {t'} hr => ?_,
    fun hs {t' q j} hr hq => ?_, fun {t'} hfz => ?_, h.entries⟩
  · rcases toTable_new hr with ⟨rfl, rfl, rfl⟩ | hr'
    · have := (h.level ht).1
      exact ⟨by omega, fun e => absurd e (by omega), fun _ => by simp⟩
    · exact h.level hr'
  · rcases toTable_new hr with ⟨rfl, -, -⟩ | hr'
    · exact .empty (by rw [hmf]; exact hz j hj)
    · rcases s.setEntry_mem_cases t i (tablePte f) t' j with ⟨rfl, rfl, e⟩ | e
      · rw [ht] at hr'
        cases hr'
        exact .child f e hself
      · exact (h.slot hr' hj).map e rfl (fun e => e) fun q => hold
  · rcases toTable_new hr with ⟨rfl, e2, -⟩ | hr'
    · have := (h.level ht).1
      omega
    · rcases s.setEntry_mem_cases t i (tablePte f) t' j with ⟨rfl, rfl, -⟩ | e
      · rw [ht] at hr'
        cases hr'
        rcases hlow rfl with h4 | hns
        · omega
        · exact absurd (hroot rfl hj) (hs.resolve_left hns)
      · rw [e]
        exact h.low hr' hj hs
  · rcases toTable_new hr with ⟨rfl, rfl, e⟩ | hr'
    · cases e
      refine ⟨⟨up, hold ht⟩, hi, s.setEntry_mem_self _ _ _, fun hk1 => ?_⟩
      rcases hlow hk1 with h4 | hns
      · exact .inl h4
      · rcases Nat.lt_or_ge i 4 with hi4 | hge
        · exact .inr ⟨hns, hroot hk1 hi4⟩
        · exact .inl hge
    · obtain ⟨⟨up', ht'⟩, hj, hm, hlow'⟩ := h.up hr'
      refine ⟨⟨up', hold ht'⟩, hj, ?_, hlow'⟩
      rcases s.setEntry_mem_cases t i (tablePte f) t' j with ⟨rfl, rfl, -⟩ | e
      · rw [h0] at hm
        exact absurd hm.symm (tablePte_ne_zero q)
      · rw [e, hm]
  · obtain ⟨q, hq, hr⟩ := h.root hj hne
    exact ⟨q, hq, hold hr⟩
  · rcases h.kern hk' with hr | ⟨q, j, hr, hq⟩
    · exact .inl (hold hr)
    · exact .inr ⟨q, j, hold hr, hq⟩
  · rcases toTable_new hr with ⟨-, -, e⟩ | hr'
    · cases e
    · exact h.kern_one hs hr'
  · rcases toTable_new hr with ⟨-, -, e⟩ | hr'
    · cases e
      exact absurd hq hk
    · exact h.kern_zero hs hr' hq
  · obtain ⟨hkt, him⟩ := h.frozen hfz
    have hne : t' ≠ t := by
      rintro rfl
      exact hk hkt
    refine ⟨hkt, fun j => ?_⟩
    rw [Mm.setEntry_mem_of_ne hne, him]

/-- A fresh zeroed page is hung into an empty slot. -/
theorem Inv.link (h : Inv p s g) (ht : g.role t = .tab (k + 1) up) (hi : i < 512)
    (h0 : s.mem t i = 0#64) (hk : ¬p.kern t) (hlow : k = 1 → 4 ≤ i ∨ ¬p.strict)
    (hf : Fresh s g f) (hz : ∀ j < 512, s.mem f j = 0#64) :
    Inv p (s.setEntry t i (tablePte f)) (g.toTable f k (some (t, i))) := by
  have hsame : SameLeaves s (s.setEntry t i (tablePte f)) g f k := by
    refine ⟨rfl, rfl, rfl, fun f' hf' => ?_, fun t' up' ht' => ?_, fun _ j hj => ?_⟩
    · exact Mm.setEntry_mem_of_ne (ne_of_role hf' ht)
    · exact Mm.setEntry_mem_of_ne (ne_of_role ht' ht)
    · rw [Mm.setEntry_mem_of_ne (ne_of_role hf.role ht)]
      exact hz j hj
  exact ⟨h.pool.toTable hf.role hsame, h.tabs.link ht hi h0 hk hlow hf.role hz,
    LeafOk.toTable h hf hsame, CountOk.toTable h hf hsame⟩

/-- A fresh page whose first four words are the kernel's entries becomes a root. -/
theorem Inv.newRoot (h : Inv p s g) (hf : Fresh s g f)
    (hk : ∀ j < 4, s.mem f j = s.kernelRoot j) (hz : ∀ j, 4 ≤ j → j < 512 → s.mem f j = 0#64) :
    Inv p s (g.toTable f 2 none) := by
  have hsame : SameLeaves s s g f 2 :=
    ⟨rfl, rfl, rfl, fun _ _ => rfl, fun _ _ _ => rfl, fun e => absurd e (by decide)⟩
  have hold : ∀ {t' k' up'}, g.role t' = .tab k' up' →
      (g.toTable f 2 none).role t' = .tab k' up' := toTable_old hf.role
  refine ⟨h.pool.toTable hf.role hsame, ?_, LeafOk.toTable h hf hsame, CountOk.toTable h hf hsame⟩
  refine ⟨fun {t' k' up'} hr => ?_, fun {t' k' up' j} hr hj => ?_, fun {t' up' j} hr hj hs => ?_,
    fun {q k' t' j} hr => ?_, fun {j} hj hne => ?_, fun {t'} hk' => ?_, fun hs {t'} hr => ?_,
    fun hs {t' q j} hr hq => ?_, fun {t'} hfz => h.tabs.frozen hfz, h.tabs.entries⟩
  · rcases toTable_new hr with ⟨-, rfl, rfl⟩ | hr'
    · exact ⟨by omega, fun _ => rfl, fun e => absurd e (by decide)⟩
    · exact h.tabs.level hr'
  · rcases toTable_new hr with ⟨rfl, e, rfl⟩ | hr'
    · rcases Nat.lt_or_ge j 4 with h4 | h4
      · by_cases h0 : s.kernelRoot j = 0#64
        · exact .empty (by rw [hk j h4, h0])
        · exact .kernel (by omega) h4 h0 (hk j h4)
      · exact .empty (hz j h4 hj)
    · exact (h.tabs.slot hr' hj).map rfl rfl (fun e => e) fun q => hold
  · rcases toTable_new hr with ⟨rfl, -, -⟩ | hr'
    · exact hk j hj
    · exact h.tabs.low hr' hj hs
  · rcases toTable_new hr with ⟨-, -, e⟩ | hr'
    · cases e
    · obtain ⟨⟨up', ht'⟩, hrest⟩ := h.tabs.up hr'
      exact ⟨⟨up', hold ht'⟩, hrest⟩
  · obtain ⟨q, hq, hr⟩ := h.tabs.root hj hne
    exact ⟨q, hq, hold hr⟩
  · rcases h.tabs.kern hk' with hr | ⟨q, j, hr, hq⟩
    · exact .inl (hold hr)
    · exact .inr ⟨q, j, hold hr, hq⟩
  · rcases toTable_new hr with ⟨-, e, -⟩ | hr'
    · cases e
    · exact h.tabs.kern_one hs hr'
  · rcases toTable_new hr with ⟨-, e, -⟩ | hr'
    · cases e
    · exact h.tabs.kern_zero hs hr' hq

end Link

/-! ## Freeing tables -/

/-- The table `x` goes, and nothing but tables above level 0 changes besides. -/
structure Removes (s s' : Mm) (g g' : Ghost) (x : Nat) : Prop where
  ram : s'.ramStart = s.ramStart
  pool : g'.pool = g.pool
  ext : g'.ext = g.ext
  wasTab : ∃ k up, g.role x = .tab k up
  leaf : ∀ {t up}, g'.role t = .tab 0 up → g.role t = .tab 0 up ∧ s'.mem t = s.mem t
  leaf_back : ∀ {t up}, g.role t = .tab 0 up → t ≠ x → g'.role t = .tab 0 up
  zero : ∀ {up}, g.role x = .tab 0 up → ∀ j < 512, s.mem x j = 0#64
  page : ∀ {f}, g'.role f = .page ↔ g.role f = .page
  tab : ∀ {f k up}, g'.role f = .tab k up → f ≠ x ∧ ∃ up', g.role f = .tab k up'
  free : ∀ {f}, g'.role f = .free → f = x ∨ g.role f = .free
  refs : ∀ {f}, f ≠ x → g.role f ≠ .other → s'.refs f = s.refs f
  refs_self : s'.refs x = 0

section Removes
variable {s s' : Mm} {g g' : Ghost} {p : Policy} {x : Nat}

theorem leafRefs_removes (e : Removes s s' g g' x) (f : Nat) : leafRefs s' g' f = leafRefs s g f := by
  rw [leafRefs, e.pool]
  refine countWhere_congr fun b hb => ?_
  obtain ⟨t, j⟩ := b
  have hj : j < 512 := Finset.mem_range.mp (Finset.mem_product.mp hb).2
  rw [Bool.eq_iff_iff, Bool.and_eq_true, Bool.and_eq_true, isLeafTable_iff, isLeafTable_iff]
  refine ⟨fun h => ?_, fun h => ?_⟩
  · obtain ⟨⟨up, hr⟩, hl⟩ := h
    obtain ⟨hr', hm⟩ := e.leaf hr
    simp only [hm] at hl
    exact ⟨⟨up, hr'⟩, hl⟩
  · obtain ⟨⟨up, hr⟩, hl⟩ := h
    by_cases ex : t = x
    · subst ex
      rw [e.zero hr j hj] at hl
      simp [leafTo] at hl
    · have hr' := e.leaf_back hr ex
      obtain ⟨-, hm⟩ := e.leaf hr'
      exact ⟨⟨up, hr'⟩, by simp only [hm]; exact hl⟩

theorem LeafOk.removes (h : LeafOk p s g) (e : Removes s s' g g' x) : LeafOk p s' g' := by
  refine leafOk_iff.mpr fun {t up j} hr hj => ?_
  obtain ⟨hr', hm⟩ := e.leaf hr
  rw [hm]
  exact (leafOk_iff.mp h hr' hj).map e.ram fun _ _ => e.page.mpr

theorem CountOk.removes (h : CountOk p s g) (e : Removes s s' g g' x) : CountOk p s' g' where
  free := by
    intro f hf
    by_cases ex : f = x
    · subst ex
      exact e.refs_self
    · have hf' := (e.free hf).resolve_left ex
      rw [e.refs ex (by simp [hf'])]
      exact h.free hf'
  tab := by
    intro f k up hf
    obtain ⟨hne, up', hf'⟩ := e.tab hf
    rw [e.refs hne (by simp [hf'])]
    exact h.tab hf'
  page := by
    intro f hf
    have hf' := e.page.mp hf
    obtain ⟨k, up, hx⟩ := e.wasTab
    rw [e.refs (ne_of_role hf' hx) (by simp [hf']), e.ext, leafRefs_removes e]
    exact h.page hf'
  ext := by
    intro f hf
    rw [e.ext]
    exact h.ext fun hp => hf (e.page.mpr hp)
  priv := by
    intro hp t up j hr hj
    obtain ⟨hr', hm⟩ := e.leaf hr
    rw [hm, e.page, e.ext, leafRefs_removes e]
    exact h.priv hp hr' hj

end Removes

/-- The state after `free_page` of a frame in use. -/
def Mm.pageFreed (s : Mm) (f : Nat) : Mm := (s.setCount (s.pageIndex f) 0).pushFree f

theorem Mm.pageFreed_mem_of_ne (s : Mm) {f f' : Nat} (h : f' ≠ f) : (s.pageFreed f).mem f' = s.mem f' :=
  Mm.setFrame_mem_of_ne h

/-- The table `q` is free. -/
def Ghost.freeTable (g : Ghost) (q : Nat) : Ghost :=
  { g with role := update g.role q .free, free := q :: g.free }

section Unlink
variable {s : Mm} {g : Ghost} {p : Policy} {t k i q : Nat}

theorem Ghost.freeTable_tab {t' k' : Nat} {up : Option (Nat × Nat)} :
    (g.freeTable q).role t' = .tab k' up ↔ t' ≠ q ∧ g.role t' = .tab k' up := by
  by_cases e : t' = q
  · subst e
    simp [freeTable]
  · simp [freeTable, e]

theorem Removes.unlink (h : Inv p s g) (hq : g.role q = .tab k (some (t, i))) (hz : ∀ j < 512, s.mem q j = 0#64) :
    Removes s ((s.pageFreed q).setEntry t i 0#64) g (g.freeTable q) q := by
  obtain ⟨⟨upt, ht⟩, -⟩ := h.tabs.up hq
  have hok : FrameOk s q := h.pool.ok (by simp [hq])
  refine ⟨rfl, rfl, rfl, ⟨k, _, hq⟩, fun {t' up} hr => ?_, fun {t' up} hr hne => ?_, fun _ => hz,
    fun {f} => ?_, fun {f k' up} hr => ?_, fun {f} hr => ?_, fun {f} hne hf => ?_, ?_⟩
  · obtain ⟨hne, hr'⟩ := freeTable_tab.mp hr
    refine ⟨hr', ?_⟩
    rw [Mm.setEntry_mem_of_ne (ne_of_role hr' ht), s.pageFreed_mem_of_ne hne]
  · exact freeTable_tab.mpr ⟨hne, hr⟩
  · by_cases e : f = q
    · subst e
      simp [freeTable, hq]
    · simp [freeTable, update_of_ne e]
  · obtain ⟨hne, hr'⟩ := freeTable_tab.mp hr
    exact ⟨hne, up, hr'⟩
  · by_cases e : f = q
    · exact .inl e
    · simp only [freeTable, update_of_ne e] at hr
      exact .inr hr
  · exact refs_setCount_of_ne hok (h.pool.ok hf) hne
  · show ((s.setCount (s.pageIndex q) 0).pushFree q).refs q = 0
    rw [refs_pushFree, refs_setCount_self]

section
variable (h : Inv p s g) (hq : g.role q = .tab k (some (t, i))) (hkq : ¬p.kern q) (hkt : ¬p.kern t)
  (hz : ∀ j < 512, s.mem q j = 0#64)
include h hq hkq hkt hz

theorem TabOk.unlink : TabOk p ((s.pageFreed q).setEntry t i 0#64) (g.freeTable q) := by
  obtain ⟨⟨upt, ht⟩, hi, hmt, hlow⟩ := h.tabs.up hq
  have hkeep : ∀ {t' k' up}, g.role t' = .tab k' up → t' ≠ q →
      (g.freeTable q).role t' = .tab k' up := fun hr hne => freeTable_tab.mpr ⟨hne, hr⟩
  have hmem : ∀ t' j, t' ≠ q → t' = t ∧ j = i ∧ ((s.pageFreed q).setEntry t i 0#64).mem t' j = 0#64 ∨
      ((s.pageFreed q).setEntry t i 0#64).mem t' j = s.mem t' j := by
    intro t' j hne
    rcases (s.pageFreed q).setEntry_mem_cases t i 0#64 t' j with e | e
    · exact .inl e
    · exact .inr (by rw [e, s.pageFreed_mem_of_ne hne])
  have hne1 : ∀ {t'}, g.role t' = .tab 1 none → t' ≠ q := by
    intro t' hr e
    rw [e, hq] at hr
    cases hr
  refine ⟨fun {t' k' up} hr => ?_, fun {t' k' up j} hr hj => ?_, fun {t' up j} hr hj hs => ?_,
    fun {q' k' t' j} hr => ?_, fun {j} hj hne => ?_, fun {t'} hk' => ?_, fun hs {t'} hr => ?_,
    fun hs {t' q' j} hr hq' => ?_, fun {t'} hfz => ?_, h.tabs.entries⟩
  · exact h.tabs.level (freeTable_tab.mp hr).2
  · obtain ⟨hne, hr'⟩ := freeTable_tab.mp hr
    rcases hmem t' j hne with ⟨-, -, e⟩ | e
    · exact .empty e
    · by_cases hslot : t' = t ∧ j = i
      · obtain ⟨rfl, rfl⟩ := hslot
        exact .empty (Mm.setEntry_mem_self ..)
      · refine (h.tabs.slot hr' hj).map e rfl (fun e => e) fun q' hq' => hkeep hq' fun eq => hslot ?_
        rw [eq, hq] at hq'
        cases hq'
        exact ⟨rfl, rfl⟩
  · obtain ⟨hne, hr'⟩ := freeTable_tab.mp hr
    rcases hmem t' j hne with ⟨rfl, rfl, -⟩ | e
    · rw [ht] at hr'
      cases hr'
      rcases hlow rfl with h4 | ⟨hns, h0⟩
      · omega
      · rcases hs with hs | hs
        · exact absurd hs hns
        · exact absurd h0 hs
    · rw [e]
      exact h.tabs.low hr' hj hs
  · obtain ⟨hne, hr'⟩ := freeTable_tab.mp hr
    obtain ⟨⟨up', ht'⟩, hj, hm, hlow'⟩ := h.tabs.up hr'
    have htq : t' ≠ q := by
      rintro rfl
      rw [hz j hj] at hm
      exact tablePte_ne_zero _ hm.symm
    refine ⟨⟨up', hkeep ht' htq⟩, hj, ?_, hlow'⟩
    rcases hmem t' j htq with ⟨rfl, rfl, -⟩ | e
    · -- two tables cannot hang in one slot
      have hok : FrameOk s q := h.pool.ok (by simp [hq])
      have hok' : FrameOk s q' := h.pool.ok (by simp [hr'])
      have : ptePa (tablePte q) = ptePa (tablePte q') := by rw [← hm, ← hmt]
      rw [ptePa_tablePte_of hok, ptePa_tablePte_of hok'] at this
      exact absurd this.symm hne
    · rw [e, hm]
  · obtain ⟨q', hq', hr⟩ := h.tabs.root hj hne
    exact ⟨q', hq', hkeep hr (hne1 hr)⟩
  · have hne : t' ≠ q := by
      rintro rfl
      exact hkq hk'
    rcases h.tabs.kern hk' with hr | ⟨q', j, hr, hq'⟩
    · exact .inl (hkeep hr hne)
    · exact .inr ⟨q', j, hkeep hr hne, hq'⟩
  · exact h.tabs.kern_one hs (freeTable_tab.mp hr).2
  · exact h.tabs.kern_zero hs (freeTable_tab.mp hr).2 hq'
  · obtain ⟨hk', him⟩ := h.tabs.frozen hfz
    refine ⟨hk', fun j => ?_⟩
    have hne : t' ≠ q := by
      rintro rfl
      exact hkq hk'
    rcases hmem t' j hne with ⟨rfl, -, -⟩ | e
    · exact absurd hk' hkt
    · rw [e, him]

/-- An empty table is freed and taken out of its slot. -/
theorem Inv.unlink : Inv p ((s.pageFreed q).setEntry t i 0#64) (g.freeTable q) := by
  obtain ⟨⟨upt, ht⟩, -⟩ := h.tabs.up hq
  have hrem := Removes.unlink h hq hz
  have hpool : PoolOk (s.pageFreed q) (g.freeTable q) := by
    refine h.pool.push (by simp [hq]) (by simp [hq]) 0 rfl rfl (update_self ..) ?_ ?_
    all_goals
      intro f hne
      simp only [freeTable, update_of_ne hne]
  have htq : t ≠ q := by
    intro e
    rw [e, hq] at ht
    simp at ht
  refine ⟨?_, TabOk.unlink h hq hkq hkt hz, h.leaves.removes hrem, h.count.removes hrem⟩
  refine hpool.frame_mem rfl rfl (fun f hf => ?_) rfl rfl (fun _ => Iff.rfl) (fun _ => Iff.rfl)
  refine Mm.setEntry_mem_of_ne (ne_of_role hf (freeTable_tab.mpr ⟨htq, ht⟩))

end

end Unlink

/-- What a frame is once the root `r` is gone: a table that hung in `r` hangs nowhere. -/
def Role.orphan (r : Nat) : Role → Role
  | .tab 1 (some (r', i)) => if r' = r then .tab 1 none else .tab 1 (some (r', i))
  | x => x

def Ghost.freeRoot (g : Ghost) (r : Nat) : Ghost :=
  { g with role := update (fun t => (g.role t).orphan r) r .free, free := r :: g.free }

section FreeRoot
variable {s : Mm} {g : Ghost} {p : Policy} {r : Nat}
variable {up : Option (Nat × Nat)} {x : Role} {k t : Nat}

theorem Role.orphan_eq_tab :
    x.orphan r = .tab k up → x = .tab k up ∨ (∃ i, x = .tab 1 (some (r, i))) ∧ k = 1 ∧ up = none := by
  intro h
  unfold orphan at h
  split at h
  · rename_i r' i
    split at h
    · rename_i e
      subst e
      cases h
      exact .inr ⟨⟨i, rfl⟩, rfl, rfl⟩
    · exact .inl h
  · exact .inl h

theorem Role.orphan_ne_tab {y : Role} (hy : ∀ k up, y ≠ .tab k up) : x.orphan r = y ↔ x = y := by
  unfold orphan
  split
  · split
    · exact ⟨fun e => absurd e.symm (hy _ _), fun e => absurd e.symm (hy _ _)⟩
    · exact Iff.rfl
  · exact Iff.rfl

theorem Role.orphan_of_ne (h : ∀ i, up ≠ some (r, i)) : (tab k up).orphan r = .tab k up := by
  unfold orphan
  split
  · rename_i r' i e
    cases e
    rw [if_neg]
    rintro rfl
    exact h i rfl
  · rfl

theorem Role.orphan_zero : (tab 0 up).orphan r = .tab 0 up := rfl

theorem Ghost.freeRoot_role_of_ne (h : t ≠ r) : (g.freeRoot r).role t = (g.role t).orphan r := by
  simp [freeRoot, update_of_ne h]

theorem Ghost.freeRoot_role_self : (g.freeRoot r).role r = .free := by
  simp [freeRoot]

theorem Ghost.freeRoot_tab (h : (g.freeRoot r).role t = .tab k up) :
    t ≠ r ∧ (g.role t = .tab k up ∨ (∃ i, g.role t = .tab 1 (some (r, i))) ∧ k = 1 ∧ up = none) := by
  by_cases e : t = r
  · subst e
    simp [freeRoot] at h
  · rw [freeRoot_role_of_ne e] at h
    exact ⟨e, orphan_eq_tab h⟩

theorem Removes.freeRoot (h : Inv p s g) (hr : g.role r = .tab 2 none) :
    Removes s (s.pageFreed r) g (g.freeRoot r) r := by
  have hok : FrameOk s r := h.pool.ok (by simp [hr])
  refine ⟨rfl, rfl, rfl, ⟨2, none, hr⟩, fun {t up} ht => ?_, fun {t up} ht hne => ?_, fun e => ?_,
    fun {f} => ?_, fun {f k up} hf => ?_, fun {f} hf => ?_, fun {f} hne hf => ?_, ?_⟩
  · obtain ⟨hne, ht' | ⟨-, e, -⟩⟩ := freeRoot_tab ht
    · exact ⟨ht', s.pageFreed_mem_of_ne hne⟩
    · cases e
  · rw [freeRoot_role_of_ne hne, ht, orphan_zero]
  · rw [hr] at e
    cases e
  · by_cases e : f = r
    · subst e
      simp [freeRoot_role_self, hr]
    · rw [Ghost.freeRoot_role_of_ne e, Role.orphan_ne_tab fun _ _ => Role.noConfusion]
  · obtain ⟨hne, hf' | ⟨⟨i, hf'⟩, rfl, -⟩⟩ := freeRoot_tab hf
    · exact ⟨hne, up, hf'⟩
    · exact ⟨hne, _, hf'⟩
  · by_cases e : f = r
    · exact .inl e
    · rw [Ghost.freeRoot_role_of_ne e, Role.orphan_ne_tab fun _ _ => Role.noConfusion] at hf
      exact .inr hf
  · exact refs_setCount_of_ne hok (h.pool.ok hf) hne
  · show ((s.setCount (s.pageIndex r) 0).pushFree r).refs r = 0
    rw [refs_pushFree, refs_setCount_self]

section
variable (h : Inv p s g) (hr : g.role r = .tab 2 none) (hz : ∀ j, 4 ≤ j → j < 512 → s.mem r j = 0#64)
include h hr hz

theorem TabOk.freeRoot : TabOk p (s.pageFreed r) (g.freeRoot r) := by
  have hkeep : ∀ {t k up}, g.role t = .tab k up → (∀ i, up ≠ some (r, i)) → t ≠ r →
      (g.freeRoot r).role t = .tab k up := fun {t k up} ht hup hne => by
    rw [freeRoot_role_of_ne hne, ht, orphan_of_ne hup]
  have hmem : ∀ {t}, t ≠ r → (s.pageFreed r).mem t = s.mem t := s.pageFreed_mem_of_ne
  have hone : ∀ {t}, g.role t = .tab 1 none → (g.freeRoot r).role t = .tab 1 none := fun {t} ht =>
    hkeep ht (by simp) (ne_of_role ht hr)
  -- nothing of level 0 hangs in a root
  have hzero : ∀ {t q j}, g.role t = .tab 0 (some (q, j)) →
      (g.freeRoot r).role t = .tab 0 (some (q, j)) ∧ q ≠ r := by
    intro t q j ht
    obtain ⟨⟨up, hq⟩, -⟩ := h.tabs.up ht
    have hqr := ne_of_role hq hr
    exact ⟨hkeep ht (fun i e => by cases e; exact hqr rfl) (ne_of_role ht hr), hqr⟩
  refine ⟨fun {t k up} ht => ?_, fun {t k up j} ht hj => ?_, fun {t up j} ht hj hs => ?_,
    fun {q k t j} ht => ?_, fun {j} hj hne => ?_, fun {t} hk => ?_, fun hs {t} ht => ?_,
    fun hs {t q j} ht hq => ?_, fun {t} hfz => ?_, h.tabs.entries⟩
  · obtain ⟨-, ht' | ⟨-, rfl, rfl⟩⟩ := freeRoot_tab ht
    · exact h.tabs.level ht'
    · exact ⟨by omega, fun _ => rfl, fun e => absurd e (by decide)⟩
  · have hslot : ∀ {up'}, g.role t = .tab (k + 1) up' → t ≠ r → (up' = none → up = none) →
        SlotOk (s.pageFreed r) (g.freeRoot r) t k up j := by
      intro up' ht' hne hup
      refine (h.tabs.slot ht' hj).map (by rw [hmem hne]) rfl hup fun q hq => hkeep hq ?_ ?_
      · intro i e
        cases e
        exact hne rfl
      · rintro rfl
        rw [hr] at hq
        cases hq
    obtain ⟨hne, ht' | ⟨⟨i, ht'⟩, hk1, hup⟩⟩ := freeRoot_tab ht
    · exact hslot ht' hne fun e => e
    · cases hk1
      exact hslot ht' hne fun _ => hup
  · obtain ⟨hne, ht' | ⟨-, e, -⟩⟩ := freeRoot_tab ht
    · rw [hmem hne]
      exact h.tabs.low ht' hj hs
    · cases e
  · obtain ⟨hne, ht' | ⟨-, -, e⟩⟩ := freeRoot_tab ht
    · obtain ⟨⟨up, hup⟩, hj, hm, hlow⟩ := h.tabs.up ht'
      have htr : t ≠ r := by
        rintro rfl
        rw [hr] at hup
        cases hup
        rw [freeRoot_role_of_ne hne, ht'] at ht
        simp [orphan] at ht
      refine ⟨?_, hj, by rw [hmem htr]; exact hm, hlow⟩
      by_cases horph : ∃ i, up = some (r, i)
      · obtain ⟨i, rfl⟩ := horph
        have hk0 : k = 0 := by
          obtain ⟨⟨up2, hup2⟩, -⟩ := h.tabs.up hup
          rw [hr] at hup2
          cases hup2
          rfl
        subst hk0
        exact ⟨none, by rw [freeRoot_role_of_ne htr, hup]; simp [orphan]⟩
      · exact ⟨up, hkeep hup (fun i e => horph ⟨i, e⟩) htr⟩
    · cases e
  · obtain ⟨q, hq, ht⟩ := h.tabs.root hj hne
    exact ⟨q, hq, hone ht⟩
  · rcases h.tabs.kern hk with ht | ⟨q, j, ht, hq⟩
    · exact .inl (hone ht)
    · exact .inr ⟨q, j, (hzero ht).1, hq⟩
  · obtain ⟨hne, ht' | ⟨⟨i, ht'⟩, -, -⟩⟩ := freeRoot_tab ht
    · exact h.tabs.kern_one hs ht'
    · -- under `strict` nothing hangs in the kernel's part of a root
      obtain ⟨-, hi, hm, hlow⟩ := h.tabs.up ht'
      rcases hlow rfl with h4 | ⟨hns, -⟩
      · rw [hz i h4 hi] at hm
        exact absurd hm.symm (tablePte_ne_zero t)
      · exact absurd hs hns
  · obtain ⟨-, ht' | ⟨-, e, -⟩⟩ := freeRoot_tab ht
    · exact h.tabs.kern_zero hs ht' hq
    · cases e
  · obtain ⟨hk, him⟩ := h.tabs.frozen hfz
    refine ⟨hk, fun j => ?_⟩
    have hne : t ≠ r := by
      rcases h.tabs.kern hk with ht | ⟨q, j, ht, -⟩
      · exact ne_of_role ht hr
      · exact ne_of_role ht hr
    rw [hmem hne, him]

/-- A root whose user part is empty is freed. -/
theorem Inv.freeRoot : Inv p (s.pageFreed r) (g.freeRoot r) := by
  have hrem := Removes.freeRoot h hr
  refine ⟨?_, TabOk.freeRoot h hr hz, h.leaves.removes hrem, h.count.removes hrem⟩
  refine h.pool.push (by simp [hr]) (by simp [hr]) 0 rfl rfl freeRoot_role_self ?_ ?_
  all_goals
    intro f hne
    rw [Ghost.freeRoot_role_of_ne hne, Role.orphan_ne_tab fun _ _ => Role.noConfusion]

end

end FreeRoot
end OpenV
