import OpenV.Mm.CowSpec

/- Mapping a frame that has just been allocated, the pattern of demand paging,
   swap-in, the ELF loader and the user stack: the frame is filled, then mapped,
   and given back if the mapping fails. -/
namespace OpenV

open Function

/-- A step of the memory manager that leaves the holders of pages and the set of address spaces
as they were. -/
structure MmStep (p : Policy) (s : Mm) (g : Ghost) (s' : Mm) (g' : Ghost) : Prop where
  inv : Inv p s' g'
  moves : Moves s g s' g'
  roots : SameRoots g g'
  small : Small s g → Small s' g'
  held : ∀ f, 0 < g.ext f → leafRefs s' g' f ≤ leafRefs s g f

section MmStep
variable {s s' s'' : Mm} {g g' g'' : Ghost} {p : Policy} {root va : Nat}

theorem MmStep.refl (h : Inv p s g) : MmStep p s g s g := ⟨h, .refl, .refl, fun h => h, fun _ _ => le_rfl⟩

theorem MmStep.trans (h : MmStep p s g s' g') (h' : MmStep p s' g' s'' g'') : MmStep p s g s'' g'' :=
  ⟨h'.inv, h.moves.trans h'.moves, h.roots.trans h'.roots, fun hs => h'.small (h.small hs),
    fun f hf => (h'.held f (by rw [h.moves.ext]; exact hf)).trans (h.held f hf)⟩

theorem Copied.step (h : Copied p s g s' g' root va) : MmStep p s g s' g' :=
  ⟨h.inv, h.moves, fun _ => h.role _ _ _, fun _ => h.small, h.total⟩

theorem Unmapped.step (hi : Inv p s g) (h : Unmapped p s g s' g' root) : MmStep p s g s' g' :=
  ⟨h.inv, h.frees.moves hi h.inv, fun _ => h.role _ _ _, h.frees.small,
    fun _ hf => h.frees.total (h.frees.held (hi.page_of_ext hf) hf)⟩

theorem Grows.small (h : Grows s g s' g') (hs : Small s g) : Small s' g' := by
  intro f hf
  have hf' := h.page_old hf
  rw [h.refs, (h.page hf').2.1]
  exact hs f hf'

end MmStep

/-- The space of `root` has a new page at `va`, of its own. -/
structure Filled (p : Policy) (s : Mm) (g : Ghost) (s' : Mm) (g' : Ghost) (root va : Nat)
    (content : Nat → Word) (flags : Word) : Prop where
  step : MmStep p s g s' g'
  keeps : Keeps (· ≠ root) s g s' g'
  unmapped : 4 ≤ vpn va 2 → has (leafAt s root (indices va)) pteV = false
  leaf : 4 ≤ vpn va 2 → ∃ new, ptePa (mkPte new (pteV ||| flags)) = new ∧ s'.mem new = content ∧
    g'.role new = .page ∧ ∀ {l}, UserIx l →
      leafAt s' root l = if l = indices va then mkPte new (pteV ||| flags) else leafAt s root l
  data : ∀ {l}, UserIx l → has (leafAt s root l) pteV = true → has (leafAt s root l) pteU = true →
    s'.mem (ptePa (leafAt s root l)) = s.mem (ptePa (leafAt s root l))

/-- The page could not be mapped: frames ran out, the address is the kernel's or in use. -/
structure NotFilled (p : Policy) (s : Mm) (g : Ghost) (s' : Mm) (g' : Ghost) (root va : Nat) : Prop where
  step : MmStep p s g s' g'
  keeps : ∀ {R}, Keeps R s g s' g'
  reason : g.free.length < 3 ∨ vpn va 2 < 4 ∨ has (leafAt s root (indices va)) pteV = true

section Fill
variable {s : Mm} {g : Ghost} {p : Policy} {root va : Nat} {flags : Word}

/-- The holders once the frame in hand is no longer in hand. -/
theorem moves_of_alloc {s' : Mm} {g' : Ghost} (h : Inv p s g) (h0 : s.head ≠ 0)
    (hram : s'.ramStart = s.ramStart) (hkr : s'.kernelRoot = s.kernelRoot) (hpool : g'.pool = g.pool)
    (hself : g'.ext s.head = 0) (hext : ∀ f, f ≠ s.head → g'.ext f = g.ext f)
    (hdata : ∀ f, g.role f = .page → s'.mem f = s.mem f) : Moves s g s' g' := by
  obtain ⟨-, -, hrole⟩ := h.pool.head_free h0
  refine ⟨hram, hkr, hpool, ?_, fun f hf => hdata f (h.page_of_ext hf)⟩
  funext f
  by_cases e : f = s.head
  · rw [e, hself, h.count.ext (by simp [hrole])]
  · exact hext f e

theorem mapPage_fresh (content : Nat → Word) (h : Inv p s g) (h0 : s.head ≠ 0) (hr : g.role root = .tab 2 none)
    (hreach : Reach p va) (hlf : LowFlags flags) (hu : has flags pteU = true) (hok : p.leafOk (pteV ||| flags)) :
    (mapPage root va s.head flags).wp (fun _ s' => ∃ g', Filled p s g s' g' root va content flags)
      (fun s' => ∃ g', NotFilled p s g (decrRefAndMaybeFree s.head s') g' root va) (fun _ => False)
      (s.allocated.setFrame s.head content) := by
  obtain ⟨rest, hfree, hrole⟩ := h.pool.head_free h0
  have hokh : FrameOk s s.head := h.pool.ok (by simp [hrole])
  obtain ⟨h1, hfresh, hsame, hkeep, hmem⟩ := h.filled h0 content
  have hcontent : (s.allocated.setFrame s.head content).mem s.head = content := Mm.setFrame_mem_self ..
  have hext1 : ∀ f, f ≠ s.head → (g.alloc s.head).ext f = g.ext f := fun f hf => update_of_ne hf ..
  have hpage1 : ∀ {f}, g.role f = .page → (g.alloc s.head).role f = .page := fun {f} hf => by
    simp only [Ghost.alloc, update_of_ne (ne_of_role hf hrole), hf]
  have hpage1' : ∀ {f}, f ≠ s.head → (g.alloc s.head).role f = .page → g.role f = .page := fun {f} hne hf => by
    simpa only [Ghost.alloc, update_of_ne hne] using hf
  have hfree1 : g.free.length = (g.alloc s.head).free.length + 1 := by simp [Ghost.alloc, hfree]
  have hpool1 : (g.alloc s.head).pool = g.pool := rfl
  have hrams : (s.allocated.setFrame s.head content).ramStart = s.ramStart ∧
      (s.allocated.setFrame s.head content).kernelRoot = s.kernelRoot := ⟨rfl, rfl⟩
  have hroots1 : SameRoots g (g.alloc s.head) := fun r => hsame.role r 2 none
  generalize s.allocated.setFrame s.head content = s1 at *
  generalize g.alloc s.head = g1 at *
  have hr1 := (hroots1 root).mpr hr
  have hleaf1 : ∀ {r l}, g.role r = .tab 2 none → UserIx l → leafAt s1 r l = leafAt s r l := fun hr hl =>
    (hkeep (R := fun _ => True)).leaf trivial hr hl
  refine Cmd.wp_mono (mapPage_page h1 hr1 hreach hfresh.role (by rw [hfresh.ext]; decide) hlf hu hok
    (fun _ _ => by rw [hfresh.ext, hfresh.refs])) (fun _ s' hd => ?_) (fun s' hd => ?_)
  · obtain ⟨g', hinv, hm⟩ := hd
    have hself : g'.ext s.head = 0 := by
      have := hm.ext
      rw [hfresh.ext] at this
      omega
    have hother : ∀ f, f ≠ s.head → g'.ext f = g.ext f := fun f hne => by
      by_cases hf : g1.role f = .page
      · rw [hm.ext_other hne hf, hext1 f hne]
      · rw [hinv.count.ext fun hf' => hf (hm.page_old hf'), h.count.ext fun hf' => hf (hpage1 hf')]
    refine ⟨g', ⟨hinv, moves_of_alloc h h0 (hm.ram.trans hrams.1) (hm.kernelRoot.trans hrams.2)
      (hm.pool.trans hpool1) hself hother (fun f hf => ?_), hroots1.trans hm.roots, fun hs f hf => ?_,
      fun f hf => ?_⟩, ?_, fun h4 => ?_, fun h4 => ⟨s.head, ?_, ?_, ?_, fun {l} hl => ?_⟩, fun {l} hl hv hu => ?_⟩
    · rw [(hm.page (hpage1 hf)).2, hmem f (ne_of_role hf hrole)]
    · rw [hm.refs, leafRefs_frame hsame]
      by_cases e : f = s.head
      · have : leafRefs s g s.head = 0 := by rw [← leafRefs_frame hsame, hfresh.refs]
        rw [e, hself, this, if_pos rfl]
        decide
      · rw [if_neg e, hother f e]
        exact hs f (hpage1' e (hm.page_old hf))
    · have e := ne_of_role (h.page_of_ext hf) hrole
      rw [hm.refs, leafRefs_frame hsame, if_neg e]
      exact le_rfl
    · exact hkeep.trans hm.keeps
    · have := hm.unmapped h4
      rwa [hleaf1 hr (userIx_indices h4)] at this
    · exact ptePa_mkPte hokh.aligned hokh.word (lowFlags_pteV_or hlf)
    · rw [(hm.page hfresh.role).2, hcontent]
    · exact (hm.page hfresh.role).1
    · rw [hm.leaf hl, hleaf1 hr hl]
    · have he := hleaf1 hr hl
      have := hm.data hl (by rw [he]; exact hv) (by rw [he]; exact hu)
      rw [he] at this
      rw [this]
      exact (hkeep (R := fun _ => True)).data trivial hr hl hv hu
  · obtain ⟨g', hinv, hg, hroots, hreason⟩ := hd
    obtain ⟨hpage', hext', -⟩ := hg.page hfresh.role
    rw [hfresh.ext] at hext'
    have hrefs' : leafRefs s' g' s.head = 0 := by rw [hg.refs, hfresh.refs]
    have hpos : 0 < g'.ext s.head := by omega
    have hle : g'.ext s.head + leafRefs s' g' s.head ≤ 65535 := by omega
    have hok' : FrameOk s' s.head := hinv.pool.ok (by simp [hpage'])
    have hsame' := SameTables.drop hok' hpage'
    have hone : ¬1 < s'.refs s.head := by
      rw [(hinv.count.page hpage').1]
      omega
    have hdrop : (g'.drop s' s.head).ext = update g'.ext s.head (g'.ext s.head - 1) :=
      Ghost.drop_ext hinv hpage' hpos
    have hother : ∀ f, f ≠ s.head → (g'.drop s' s.head).ext f = g.ext f := fun f hne => by
      rw [hdrop, update_of_ne hne]
      by_cases hf : g1.role f = .page
      · rw [(hg.page hf).2.1, hext1 f hne]
      · rw [hinv.count.ext fun hf' => hf (hg.page_old hf'), h.count.ext fun hf' => hf (hpage1 hf')]
    refine ⟨_, ⟨hinv.drop hpage' hpos hle, moves_of_alloc h h0 ?_ ?_ ?_ ?_ hother (fun f hf => ?_), ?_,
      fun hs f hf => ?_, fun f hf => ?_⟩, hkeep.trans (hg.keeps.trans (Keeps.drop hinv hpage' hpos hle)), ?_⟩
    · exact hsame'.ram.trans (hg.ram.trans hrams.1)
    · exact hsame'.kernelRoot.trans (hg.kernelRoot.trans hrams.2)
    · exact hsame'.pool.trans (hg.pool.trans hpool1)
    · rw [hdrop, update_self, hext']
    · have hne := ne_of_role hf hrole
      rw [decrRef_eq hok', if_neg hone, Mm.pushFree, Mm.setFrame_mem_of_ne hne]
      rw [← hmem f hne]
      exact (hg.page (hpage1 hf)).2.2
    · exact hroots1.trans (hroots.trans fun r => hsame'.role r 2 none)
    · have hf' := Ghost.drop_page hf
      have e : f ≠ s.head := by
        rintro rfl
        unfold Ghost.drop at hf
        rw [if_neg hone] at hf
        simp at hf
      rw [leafRefs_frame hsame', hother f e, hg.refs, leafRefs_frame hsame]
      exact hs f (hpage1' e (hg.page_old hf'))
    · rw [leafRefs_frame hsame', hg.refs, leafRefs_frame hsame]
    · rcases hreason with hlt | hlow | hv
      · exact .inl (by omega)
      · exact .inr (.inl hlow)
      · rcases Nat.lt_or_ge (vpn va 2) 4 with h4 | h4
        · exact .inr (.inl h4)
        · rw [hleaf1 hr (userIx_indices h4)] at hv
          exact .inr (.inr hv)

end Fill
end OpenV
