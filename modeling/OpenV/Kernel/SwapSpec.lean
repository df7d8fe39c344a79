import OpenV.Kernel.Inv

/- Eviction: what `try_evict_page` takes is a user page of a stopped process, and
   taking it is a step of the memory manager that leaves its flags behind in the
   swap map. `alloc_page` follows. -/
namespace OpenV

open Cmd

section Find
variable {s : Mm} {k : Kern} {root l0 l2i l1i l0i : Nat}

theorem nextTable_eq (s : Mm) (pt i : Nat) : nextTable s pt i = tableAt s pt i := by
  unfold nextTable tableAt
  dsimp only
  cases has (s.mem pt i) pteV <;> cases isLeaf (s.mem pt i) <;> rfl

/-- The page found is a managed user page below a root entry of the process. -/
structure Evictable (s : Mm) (root l0 l2i l1i l0i : Nat) : Prop where
  table : leafTable s root l2i l1i = some l0
  low : 4 ≤ l2i
  high : l2i < 512 ∧ l1i < 512 ∧ l0i < 512
  valid : has (s.mem l0 l0i) pteV = true
  user : has (s.mem l0 l0i) pteU = true
  managed : s.isManagedPage (ptePa (s.mem l0 l0i)) = true

theorem findEvictable_some (h : findEvictable s root = some (l0, l2i, l1i, l0i)) :
    Evictable s root l0 l2i l1i l0i := by
  obtain ⟨i2, h2, hx⟩ := List.exists_of_findSome?_eq_some h
  obtain ⟨t1, ht1, hx⟩ := Option.bind_eq_some_iff.mp hx
  obtain ⟨i1, h1, hx⟩ := List.exists_of_findSome?_eq_some hx
  obtain ⟨t0, ht0, hx⟩ := Option.bind_eq_some_iff.mp hx
  obtain ⟨i0, h0, hx⟩ := List.exists_of_findSome?_eq_some hx
  rw [nextTable_eq] at ht1 ht0
  rw [List.mem_range'_1] at h2
  rw [List.mem_range] at h1 h0
  dsimp only at hx
  split at hx
  · rename_i hpte
    simp only [Bool.and_eq_true] at hpte
    cases hx
    refine ⟨?_, h2.1, ⟨by omega, h1, h0⟩, hpte.1.1, hpte.1.2, hpte.2⟩
    rw [leafTable, ht1]
    exact ht0
  · cases hx

theorem findVictim_some {pids : List Nat} (h : findVictim k pids = some (root, l0, l2i, l1i, l0i)) :
    (∃ pid q, k.procs pid = some q ∧ q.root = root) ∧ Evictable k.mm root l0 l2i l1i l0i := by
  obtain ⟨pid, -, hx⟩ := List.exists_of_findSome?_eq_some h
  split at hx
  · rename_i q hq
    split at hx
    · obtain ⟨v, hv, he⟩ := Option.map_eq_some_iff.mp hx
      cases he
      exact ⟨⟨pid, q, hq, rfl⟩, findEvictable_some hv⟩
    · cases hx
  · cases hx

end Find

section Evict
variable {k : Kern} {g : Ghost} {p : Policy} {held : List Nat} {root l0 l2i l1i l0i : Nat}

theorem Dropped.step {s s' : Mm} {g' : Ghost} {t i : Nat} (hi : Inv p s g)
    (h : Dropped p s g s' g' t i) : MmStep p s g s' g' :=
  ⟨h.inv, h.frees.moves hi h.inv, fun _ => h.role _ _ _, h.frees.small,
    fun _ hf => h.frees.total (h.frees.held (hi.page_of_ext hf) hf)⟩

theorem pteV_or_pteFlags {e : Word} (h : has e pteV = true) : pteV ||| pteFlags e = pteFlags e := by
  have hv : (pteFlags e).getLsbD 0 = true := by
    rw [← has_v, pteFlags_v, h]
  apply BitVec.eq_of_getLsbD_eq
  intro i hi
  rw [BitVec.getLsbD_or]
  by_cases e0 : i = 0
  · rw [e0, hv, Bool.or_true]
  · have : pteV.getLsbD i = false := by
      rw [show pteV = 1#64 <<< 0 from rfl, getLsbD_bit 0 i (by decide)]
      exact decide_eq_false e0
    rw [this, Bool.false_or]

variable {E X : Kern → Prop}

theorem evictPage_keeps (h : KInv p held k g) (hs : Small k.mm g) (hr : g.role root = .tab 2 none)
    (he : Evictable k.mm root l0 l2i l1i l0i) :
    (evictPage root l0 l2i l1i l0i).wp (fun _ k' => SameProcs k k' ∧ ∃ g', KStep p held k g k' g') E X k := by
  obtain ⟨h2, h1, h0⟩ := he.high
  have hat := at_of_leafTable h.mm hr h2 he.low h1 he.table
  obtain ⟨up, ht⟩ := role_of_leafTable h.mm hr h2 h1 he.table
  have hfz : ¬p.frozen l0 := fun hf => hat.not_kern h.mm.tabs (h.mm.tabs.frozen hf).1
  have hpage : g.role (ptePa (k.mm.mem l0 l0i)) = .page :=
    (h.mm.leaves.user ht h0 he.valid he.user).resolve_right fun x => by
      rw [he.managed] at x
      cases x
  have hto : leafTo (k.mm.mem l0 l0i) (ptePa (k.mm.mem l0 l0i)) = true :=
    leafTo_iff.mpr ⟨he.valid, he.user, rfl⟩
  have hd := Dropped.page h.mm hs ht h0 hfz hto hpage
  rw [setEntry_decrRef (h.mm.pool.ok (by simp [hpage])) (ne_of_role ht hpage)] at hd
  simp only [evictPage, wp_bind, wp_get, wp_modify, Kern.onMm, wp_zoom]
  have hsw : ∀ va data, KStep p held k g (putSwap root va ⟨data, pteFlags (k.mm.mem l0 l0i)⟩ k) g :=
    fun va data => .of_inv (h.putSwap root va (lowFlags_pteFlags _) (by rw [pteFlags_u]; exact he.user)
      (by rw [pteV_or_pteFlags he.valid]; exact h.mm.leaves.ok ht h0 he.valid)) rfl rfl rfl
  exact ⟨⟨rfl, rfl⟩, _, (hsw _ _).trans (.of_mm (hsw _ _).inv (hd.step h.mm))⟩

theorem tryEvictPage_keeps (h : KInv p held k g) (hs : Small k.mm g) :
    tryEvictPage.wp (fun _ k' => SameProcs k k' ∧ ∃ g', KStep p held k g k' g') E X k := by
  simp only [tryEvictPage, wp_bind, wp_get]
  split
  · rename_i root l0 l2i l1i l0i hv
    obtain ⟨⟨pid, q, hq, rfl⟩, he⟩ := findVictim_some hv
    simp only [wp_bind]
    exact wp_imp (evictPage_keeps h hs (h.root hq) he) (fun _ _ hk => by
      simpa only [wp_pure] using hk)
  · simp only [wp_pure]
    exact ⟨⟨rfl, rfl⟩, g, .refl h⟩

/-- A frame in hand that nothing maps. -/
structure Taken (p : Policy) (held : List Nat) (k : Kern) (g : Ghost) (k' : Kern) (g' : Ghost)
    (page : Nat) : Prop where
  inv : KInv p (page :: held) k' g'
  small : Small k'.mm g'
  own : g'.ext page + leafRefs k'.mm g' page = 1
  total : ∀ f, 0 < g.ext f → f ≠ page ∧ g'.ext f = g.ext f ∧ leafRefs k'.mm g' f ≤ leafRefs k.mm g f

theorem Taken.alloc (h : KInv p held k g) (hs : Small k.mm g) (h0 : k.mm.head ≠ 0) :
    Taken p held k g { k with mm := k.mm.allocated } (g.alloc k.mm.head) k.mm.head := by
  obtain ⟨rest, -, hfree⟩ := h.mm.pool.head_free h0
  obtain ⟨hfresh, -⟩ := h.mm.fresh_allocated h0
  have hsame := SameTables.alloc h.mm.pool h0
  have hext0 : g.ext k.mm.head = 0 := h.mm.count.ext (by simp [hfree])
  have hother : ∀ f, f ≠ k.mm.head → (g.alloc k.mm.head).ext f = g.ext f := fun f hf =>
    Function.update_of_ne hf ..
  refine ⟨h.of_mm (h.mm.alloc h0) (fun f => ?_) fun hq => (hsame.role _ _ _).mpr (h.root hq), fun f hf => ?_,
    by rw [hfresh.ext, hfresh.refs], fun f hf => ?_⟩
  · by_cases e : f = k.mm.head
    · have := h.ext f
      rw [e] at this
      rw [e, hfresh.ext, List.count_cons_self]
      omega
    · rw [hother f e, h.ext, List.count_cons_of_ne (Ne.symm e)]
  · by_cases e : f = k.mm.head
    · rw [e, hfresh.ext, hfresh.refs]
      decide
    · rw [hother f e, leafRefs_frame hsame]
      refine hs f ?_
      simpa only [Ghost.alloc, Function.update_of_ne e] using hf
  · have e : f ≠ k.mm.head := by
      rintro rfl
      omega
    exact ⟨e, hother f e, le_of_eq (leafRefs_frame hsame f)⟩

/-- `alloc_page` hands out a frame, if need be after an eviction. -/
theorem allocPage_keeps (h : KInv p held k g) (hs : Small k.mm g) :
    allocPage.wp (fun r k' => SameProcs k k' ∧ match r with
      | some page => ∃ g', Taken p held k g k' g' page
      | none => ∃ g', KStep p held k g k' g') E X k := by
  simp only [allocPage, wp_bind, Kern.onMm, wp_zoom, wp_of_eq (allocFrame_eq h.mm.pool)]
  split
  · simp only [Cmd.Ends, wp_bind]
    refine wp_imp (tryEvictPage_keeps h hs) fun found k' hd => ?_
    obtain ⟨hprocs, g', hk⟩ := hd
    simp only [wp_ite, wp_zoom, wp_of_eq (allocFrame_eq hk.inv.mm.pool), wp_pure]
    refine ⟨fun _ => ?_, fun _ => ⟨hprocs, g', hk⟩⟩
    split
    · exact ⟨hprocs, g', hk⟩
    · rename_i h0'
      have ht := Taken.alloc hk.inv (hk.small hs) h0'
      refine ⟨hprocs, _, ht.inv, ht.small, ht.own, fun f hf => ?_⟩
      obtain ⟨hne, hext, hle⟩ := ht.total f (by rw [hk.ext]; exact hf)
      exact ⟨hne, hext.trans (by rw [hk.ext]), hle.trans (hk.total f hf)⟩
  · rename_i h0
    simp only [Cmd.Ends, wp_pure]
    exact ⟨⟨rfl, rfl⟩, _, Taken.alloc h hs h0⟩

end Evict
end OpenV
