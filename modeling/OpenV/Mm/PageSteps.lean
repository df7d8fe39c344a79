import OpenV.Mm.Layout

/- The steps that touch no page table: a frame leaves the free list, a page
   gains or loses a reference, its content changes. Each keeps the layout
   invariant, with the ghost state moved accordingly. -/
namespace OpenV

open Function Mm

/-- The two states have the same page tables, word for word. -/
structure SameTables (s s' : Mm) (g g' : Ghost) : Prop where
  pool : g'.pool = g.pool
  ram : s'.ramStart = s.ramStart
  kernelRoot : s'.kernelRoot = s.kernelRoot
  role : ∀ t k up, g'.role t = .tab k up ↔ g.role t = .tab k up
  mem : ∀ t k up, g.role t = .tab k up → s'.mem t = s.mem t

section Frame
variable {s s' : Mm} {g g' : Ghost} {p : Policy}

/-- A slot is read as before, and what hangs in it still does. -/
theorem SlotOk.map {t k i : Nat} {up up' : Option (Nat × Nat)} (h : SlotOk s g t k up i)
    (hm : s'.mem t i = s.mem t i) (hkr : s'.kernelRoot = s.kernelRoot) (hup : up = none → up' = none)
    (hrole : ∀ q, g.role q = .tab k (some (t, i)) → g'.role q = .tab k (some (t, i))) : SlotOk s' g' t k up' i := by
  cases h with
  | empty h0 => exact .empty (by rw [hm, h0])
  | child q h0 hq => exact .child q (by rw [hm, h0]) (hrole q hq)
  | kernel hk hi h0 h1 => exact .kernel hk hi (by rw [hkr]; exact h0) (by rw [hm, hkr, h1])
  | mega hk hu hM => exact .mega hk (hup hu) (by rw [hm]; exact hM)

/-- Only level 0 changes, and there nothing that is frozen. -/
theorem TabOk.above (h : TabOk p s g) (hkr : s'.kernelRoot = s.kernelRoot)
    (hrole : ∀ t k up, g'.role t = .tab k up ↔ g.role t = .tab k up)
    (hmem : ∀ t k up, g.role t = .tab (k + 1) up → s'.mem t = s.mem t)
    (hfz : ∀ t, p.frozen t → s'.mem t = s.mem t) : TabOk p s' g' where
  level hr := h.level ((hrole _ _ _).mp hr)
  slot hr hi := by
    have hr' := (hrole _ _ _).mp hr
    exact (h.slot hr' hi).map (by rw [hmem _ _ _ hr']) hkr (fun e => e) fun q hq => (hrole _ _ _).mpr hq
  low := by
    intro t up i hr hi h0
    have hr' := (hrole _ _ _).mp hr
    rw [hkr] at h0 ⊢
    rw [hmem _ _ _ hr']
    exact h.low hr' hi h0
  up := by
    intro q k t i hr
    obtain ⟨⟨up, ht⟩, hi, hm, hk⟩ := h.up ((hrole _ _ _).mp hr)
    rw [hkr, hmem _ _ _ ht]
    exact ⟨⟨up, (hrole _ _ _).mpr ht⟩, hi, hm, hk⟩
  root := by
    intro i hi h0
    rw [hkr] at h0 ⊢
    obtain ⟨q, hq, hr⟩ := h.root hi h0
    exact ⟨q, hq, (hrole _ _ _).mpr hr⟩
  kern := by
    intro t ht
    rcases h.kern ht with hr | ⟨q, j, hr, hq⟩
    · exact .inl ((hrole _ _ _).mpr hr)
    · exact .inr ⟨q, j, (hrole _ _ _).mpr hr, hq⟩
  kern_one hs t hr := h.kern_one hs ((hrole _ _ _).mp hr)
  kern_zero hs t q j hr hq := h.kern_zero hs ((hrole _ _ _).mp hr) hq
  frozen ht := ⟨(h.frozen ht).1, fun i => by rw [hfz _ ht, (h.frozen ht).2]⟩
  entries hs := hkr.trans (h.entries hs)

theorem TabOk.frame (h : TabOk p s g) (e : SameTables s s' g g') : TabOk p s' g' := by
  refine h.above e.kernelRoot e.role (fun t k up ht => e.mem t _ up ht) fun t ht => ?_
  rcases h.kern (h.frozen ht).1 with hr | ⟨q, j, hr, -⟩
  · exact e.mem _ _ _ hr
  · exact e.mem _ _ _ hr

theorem leafRefs_frame (e : SameTables s s' g g') (f : Nat) : leafRefs s' g' f = leafRefs s g f := by
  rw [leafRefs, e.pool]
  refine countWhere_congr fun x _ => ?_
  rw [Bool.eq_iff_iff, Bool.and_eq_true, Bool.and_eq_true, Role.isLeafTable_iff, Role.isLeafTable_iff]
  refine ⟨fun h => ?_, fun h => ?_⟩
  · obtain ⟨⟨up, hr⟩, hl⟩ := h
    have hr' := (e.role _ _ _).mp hr
    exact ⟨⟨up, hr'⟩, by rw [← e.mem _ _ _ hr']; exact hl⟩
  · obtain ⟨⟨up, hr⟩, hl⟩ := h
    exact ⟨⟨up, (e.role _ _ _).mpr hr⟩, by rw [e.mem _ _ _ hr]; exact hl⟩

/-- What a word of the level-0 table `t` has to satisfy. -/
structure EntryOk (p : Policy) (s : Mm) (g : Ghost) (t : Nat) (w : Word) : Prop where
  valid : w = 0#64 ∨ has w pteV = true
  ok : has w pteV = true → p.leafOk (pteFlags w)
  user : has w pteV = true → has w pteU = true → g.role (ptePa w) = .page ∨ s.isManagedPage (ptePa w) = false
  kern : p.strict → p.kern t → has w pteV = true → has w pteU = false

theorem leafOk_iff : LeafOk p s g ↔ ∀ {t up i}, g.role t = .tab 0 up → i < 512 → EntryOk p s g t (s.mem t i) := by
  refine ⟨fun h _ _ _ hr hi => ⟨h.valid hr hi, h.ok hr hi, h.user hr hi, fun hs hk => h.kern hs hk hr hi⟩, fun h => ?_⟩
  exact ⟨fun hr hi => (h hr hi).valid, fun hr hi => (h hr hi).ok, fun hr hi => (h hr hi).user,
    fun hs _ _ _ hk hr hi => (h hr hi).kern hs hk⟩

theorem EntryOk.zero {t : Nat} : EntryOk p s g t 0#64 := by
  have hv : ¬has 0#64 pteV = true := by simp [has_zero]
  exact ⟨.inl rfl, fun h => absurd h hv, fun h => absurd h hv, fun _ _ h => absurd h hv⟩

/-- A page that is mapped has to stay a page. -/
theorem EntryOk.map {t : Nat} {w : Word} (h : EntryOk p s g t w) (hram : s'.ramStart = s.ramStart)
    (hpage : has w pteV = true → has w pteU = true → g.role (ptePa w) = .page → g'.role (ptePa w) = .page) :
    EntryOk p s' g' t w := by
  refine ⟨h.valid, h.ok, fun hv hu => (h.user hv hu).imp (hpage hv hu) fun hm => ?_, h.kern⟩
  rw [isManagedPage, hram]
  exact hm

theorem LeafOk.frame (h : LeafOk p s g) (hp : PoolOk s g) (e : SameTables s s' g g')
    (hpage : ∀ f, g.role f = .page → 0 < leafRefs s g f → g'.role f = .page) : LeafOk p s' g' := by
  refine leafOk_iff.mpr fun {t up i} hr hi => ?_
  have hr' := (e.role _ _ _).mp hr
  rw [e.mem _ _ _ hr']
  refine (leafOk_iff.mp h hr' hi).map e.ram fun hv hu hto => hpage _ hto ?_
  exact (leafRefs_pos hp).mpr ⟨t, up, i, hr', hi, leafTo_iff.mpr ⟨hv, hu, rfl⟩⟩

end Frame

/-! ## Reference counts -/

section Counts
variable {s : Mm} {f f' n : Nat}

theorem refs_setCount_self : (s.setCount (s.pageIndex f) n).refs f = n := by
  exact update_self ..

theorem refs_setCount_of_ne (h : FrameOk s f) (h' : FrameOk s f') (hne : f' ≠ f) :
    (s.setCount (s.pageIndex f) n).refs f' = s.refs f' := by
  exact update_of_ne (fun e => hne (h'.index_inj h e)) ..

theorem refs_pushFree : (s.pushFree f).refs f' = s.refs f' := rfl

theorem incrRef_eq (h : FrameOk s f) : incrRef f s = s.setCount (s.pageIndex f) (min (s.refs f + 1) 65535) := by
  have hi := h.index_lt
  simp only [incrRef, hi, if_true, refs]

theorem decrRef_eq (h : FrameOk s f) : decrRefAndMaybeFree f s =
    if 1 < s.refs f then s.setCount (s.pageIndex f) (s.refs f - 1)
    else (s.setCount (s.pageIndex f) 0).pushFree f := by
  have hi : ¬ (maxPages ≤ s.pageIndex f ∨ s.isManagedPage f = false) := by
    have h1 := h.index_lt
    rw [h.managed]
    simp only [Bool.true_eq_false, or_false]
    omega
  unfold decrRefAndMaybeFree
  rw [if_neg hi]
  rfl

end Counts

/-! ## The steps -/

/-- The state after a successful `alloc_frame`. -/
def Mm.allocated (s : Mm) : Mm :=
  { s.setFrame s.head (fun _ => 0#64) with
    head := (s.mem s.head 0).toNat
    counts := update s.counts (s.pageIndex s.head) 1 }

/-- A free frame becomes a page held by a guard. -/
def Ghost.alloc (g : Ghost) (f : Nat) : Ghost :=
  { g with
    role := update g.role f .page
    ext := update g.ext f 1
    free := g.free.tail }

def Ghost.addExt (g : Ghost) (f : Nat) : Ghost := { g with ext := update g.ext f (g.ext f + 1) }

/-- One reference to `f`, held outside the tables, is given up. -/
def Ghost.drop (g : Ghost) (s : Mm) (f : Nat) : Ghost :=
  if 1 < s.refs f then { g with ext := update g.ext f (g.ext f - 1) }
  else
    { g with
      role := update g.role f .free
      ext := update g.ext f 0
      free := f :: g.free }

section Steps
variable {s : Mm} {g : Ghost} {p : Policy} {f : Nat}

theorem Mm.setFrame_mem_of_ne {s : Mm} {f f' : Nat} {c : Nat → Word} (h : f' ≠ f) :
    (s.setFrame f c).mem f' = s.mem f' := if_neg h

theorem Mm.setFrame_mem_self (s : Mm) (f : Nat) (c : Nat → Word) : (s.setFrame f c).mem f = c := if_pos rfl

variable {s' : Mm} {g' : Ghost} {r : Role}

theorem FrameOk.of_ram (h : FrameOk s f) (e : s'.ramStart = s.ramStart) : FrameOk s' f :=
  ⟨h.aligned, h.ne_zero, by rw [e]; exact h.lo, by rw [e]; exact h.hi, h.word⟩

/-- Changing frames outside the free list keeps the pool. -/
theorem PoolOk.frame_mem (h : PoolOk s g) (hram : s'.ramStart = s.ramStart) (hhead : s'.head = s.head)
    (hmem : ∀ f, g.role f = .free → s'.mem f = s.mem f) (hpool : g'.pool = g.pool) (hfree : g'.free = g.free)
    (hother : ∀ f, g'.role f = .other ↔ g.role f = .other) (hrole : ∀ f, g'.role f = .free ↔ g.role f = .free) :
    PoolOk s' g' where
  frame := by
    intro f hf
    rw [hpool] at hf
    exact (h.frame f hf).of_ram hram
  pool := by
    intro f
    rw [hpool, h.pool, ne_eq, ne_eq, hother]
  linked := by
    rw [hhead, hfree]
    exact h.linked.congr fun a ha => by rw [hmem a ((h.mem_free a).mp ha)]
  nodup := hfree ▸ h.nodup
  mem_free := by
    intro f
    rw [hfree, h.mem_free, hrole]
  poison := by
    intro f hf
    rw [hfree] at hf
    rw [hmem f ((h.mem_free f).mp hf)]
    exact h.poison f hf

/-- The head of the list is the first free frame. -/
theorem PoolOk.head_free (h : PoolOk s g) (h0 : s.head ≠ 0) :
    ∃ rest, g.free = s.head :: rest ∧ g.role s.head = .free := by
  have hl := h.linked
  cases hf : g.free with
  | nil => rw [hf] at hl; exact absurd hl h0
  | cons a rest =>
    rw [hf] at hl
    obtain ⟨e, -, -⟩ := hl
    refine ⟨rest, by rw [e], (h.mem_free _).mp ?_⟩
    rw [hf, e]
    exact .head _

theorem PoolOk.free_nil (h : PoolOk s g) (h0 : s.head = 0) : g.free = [] := by
  have hl := h.linked
  cases hf : g.free with
  | nil => rfl
  | cons a rest =>
    rw [hf] at hl
    exact absurd (hl.1.symm.trans h0) hl.2.1

theorem PoolOk.alloc (h : PoolOk s g) (h0 : s.head ≠ 0) : PoolOk s.allocated (g.alloc s.head) := by
  obtain ⟨rest, hfree, hrole⟩ := h.head_free h0
  have hnd := h.nodup
  rw [hfree, List.nodup_cons] at hnd
  have hl := h.linked
  rw [hfree] at hl
  have hmem : ∀ f ∈ rest, s.allocated.mem f = s.mem f := fun f hf =>
    Mm.setFrame_mem_of_ne (fun e => hnd.1 (e ▸ hf))
  refine ⟨fun f hf => (h.frame f hf).of_ram rfl, fun f => ?_, ?_, ?_, fun f => ?_, fun f hf => ?_⟩
  · by_cases e : f = s.head
    · subst e
      simp [Ghost.alloc, h.pool, hrole]
    · simp [Ghost.alloc, update_of_ne e, h.pool]
  · simp only [Ghost.alloc, hfree]
    exact hl.2.2.congr fun a ha => by rw [hmem a ha]
  · simp only [Ghost.alloc, hfree]
    exact hnd.2
  · have hm := h.mem_free f
    rw [hfree] at hm
    simp only [Ghost.alloc, hfree]
    by_cases e : f = s.head
    · subst e
      simp [hnd.1]
    · simpa [e] using hm
  · simp only [Ghost.alloc, hfree] at hf
    rw [hmem f hf]
    exact h.poison f (by rw [hfree]; exact .tail _ hf)

/-- Neither before nor after is `f` a table. -/
theorem role_update_tab {role : Nat → Role} (h : ∀ k up, role f ≠ .tab k up) (h' : ∀ k up, r ≠ .tab k up)
    (t k : Nat) (up : Option (Nat × Nat)) : update role f r t = .tab k up ↔ role t = .tab k up := by
  by_cases e : t = f
  · subst e
    rw [update_self]
    exact ⟨fun x => absurd x (h' _ _), fun x => absurd x (h _ _)⟩
  · rw [update_of_ne e]

theorem ne_of_role {t : Nat} {r' : Role} (h : g.role t = r) (h' : g.role f = r') (hne : r ≠ r' := by simp) :
    t ≠ f := by
  rintro rfl
  exact hne (h.symm.trans h')

/-- Only the count, role and holders of `f`, which is no table, change. -/
theorem CountOk.frame (h : Inv p s g) (e : SameTables s s' g g') (hf : ∀ k up, g.role f ≠ .tab k up)
    (hrefs : ∀ f', f' ≠ f → g.role f' ≠ .other → s'.refs f' = s.refs f')
    (hrole : ∀ f', f' ≠ f → g'.role f' = g.role f') (hext : ∀ f', f' ≠ f → g'.ext f' = g.ext f')
    (hself : g'.role f = .free ∧ s'.refs f = 0 ∧ g'.ext f = 0 ∨
      g'.role f = .page ∧ s'.refs f = min (g'.ext f + leafRefs s g f) 65535 ∧ 0 < g'.ext f + leafRefs s g f)
    (hpriv : p.priv → ∀ t up i, g.role t = .tab 0 up → i < 512 → leafTo (s.mem t i) f = true →
      has (s.mem t i) pteW = true → g'.role f = .page → g'.ext f + leafRefs s g f = 1) : CountOk p s' g' where
  free := by
    intro f' hf'
    by_cases e : f' = f
    · subst e
      rcases hself with ⟨-, h0, -⟩ | ⟨hp, -⟩
      · exact h0
      · rw [hp] at hf'; exact Role.noConfusion hf'
    · rw [hrole f' e] at hf'
      rw [hrefs f' e (by simp [hf'])]
      exact h.count.free hf'
  tab := by
    intro f' k up hf'
    have hf'' := (e.role _ _ _).mp hf'
    rw [hrefs f' (fun x => hf k up (x ▸ hf'')) (by simp [hf''])]
    exact h.count.tab hf''
  page := by
    intro f' hf'
    rw [leafRefs_frame e]
    by_cases e' : f' = f
    · subst e'
      rcases hself with ⟨hp, -⟩ | ⟨-, h1, h2⟩
      · rw [hp] at hf'; exact Role.noConfusion hf'
      · exact ⟨h1, h2⟩
    · rw [hrole f' e'] at hf'
      rw [hrefs f' e' (by simp [hf']), hext f' e']
      exact h.count.page hf'
  ext := by
    intro f' hf'
    by_cases e' : f' = f
    · subst e'
      rcases hself with ⟨-, -, h0⟩ | ⟨hp, -⟩
      · exact h0
      · exact absurd hp hf'
    · rw [hrole f' e'] at hf'
      rw [hext f' e']
      exact h.count.ext hf'
  priv := by
    intro hp t up i ht hi hv hu hw hr
    have ht' := (e.role _ _ _).mp ht
    rw [e.mem _ _ _ ht'] at hv hu hw hr ⊢
    rw [leafRefs_frame e]
    by_cases e' : ptePa (s.mem t i) = f
    · have hto : leafTo (s.mem t i) f = true := leafTo_iff.mpr ⟨hv, hu, e'⟩
      rw [e'] at hr ⊢
      exact hpriv hp t up i ht' hi hto hw hr
    · rw [hrole _ e'] at hr
      rw [hext _ e']
      exact h.count.priv hp ht' hi hv hu hw hr

theorem SameTables.alloc (h : PoolOk s g) (h0 : s.head ≠ 0) : SameTables s s.allocated g (g.alloc s.head) := by
  obtain ⟨-, -, hrole⟩ := h.head_free h0
  refine ⟨rfl, rfl, rfl, ?_, fun t k up ht => setFrame_mem_of_ne (ne_of_role ht hrole)⟩
  exact role_update_tab (by simp [hrole]) (fun _ _ => Role.noConfusion)

theorem Inv.alloc (h : Inv p s g) (h0 : s.head ≠ 0) : Inv p s.allocated (g.alloc s.head) := by
  obtain ⟨-, -, hrole⟩ := h.pool.head_free h0
  have hok : FrameOk s s.head := h.pool.ok (by simp [hrole])
  have hsame := SameTables.alloc h.pool h0
  have hzero : leafRefs s g s.head = 0 :=
    leafRefs_eq_zero h.pool h.leaves (by simp [hrole]) (by simp [hrole])
  have hrefs : s.allocated.refs s.head = 1 := refs_setCount_self
  refine ⟨h.pool.alloc h0, h.tabs.frame hsame, h.leaves.frame h.pool hsame fun f hf _ => ?_, ?_⟩
  · simp only [Ghost.alloc, update_of_ne (ne_of_role hf hrole), hf]
  · refine CountOk.frame h hsame (by simp [hrole])
      (fun f hne hf => refs_setCount_of_ne hok (h.pool.ok hf) hne)
      (fun f hne => update_of_ne hne ..) (fun f hne => update_of_ne hne ..) (.inr ?_) ?_
    · simp [Ghost.alloc, hzero, hrefs]
    · intro _ t up i ht hi hto _ _
      have hpos := (leafRefs_pos h.pool).mpr ⟨t, up, i, ht, hi, hto⟩
      omega

theorem SameTables.incr (hok : FrameOk s f) : SameTables s (incrRef f s) g (g.addExt f) := by
  rw [incrRef_eq hok]
  exact ⟨rfl, rfl, rfl, fun _ _ _ => Iff.rfl, fun _ _ _ _ => rfl⟩

/-- A page keeps its role when the references from outside the tables change, with its count. -/
theorem Inv.recount (h : Inv p s g) (hr : g.role f = .page) {n e : Nat}
    (hsame : SameTables s (s.setCount (s.pageIndex f) n) g { g with ext := update g.ext f e })
    (hn : n = min (e + leafRefs s g f) 65535) (hpos : 0 < e + leafRefs s g f)
    (hw : p.priv → ∀ t up i, g.role t = .tab 0 up → i < 512 → leafTo (s.mem t i) f = true →
      has (s.mem t i) pteW = false) : Inv p (s.setCount (s.pageIndex f) n) { g with ext := update g.ext f e } := by
  have hok : FrameOk s f := h.pool.ok (by simp [hr])
  refine ⟨h.pool.frame_mem rfl rfl (fun _ _ => rfl) rfl rfl (fun _ => Iff.rfl) (fun _ => Iff.rfl),
    h.tabs.frame hsame, h.leaves.frame h.pool hsame fun _ hf _ => hf, ?_⟩
  refine CountOk.frame h hsame (by simp [hr])
    (fun f' hne hf' => refs_setCount_of_ne hok (h.pool.ok hf') hne) (fun _ _ => rfl)
    (fun f' hne => update_of_ne hne ..) (.inr ⟨hr, ?_, ?_⟩) fun hp t up i ht hi hto hW _ => ?_
  · simp only [refs_setCount_self, update_self, hn]
  · simpa only [update_self] using hpos
  · rw [hw hp t up i ht hi hto] at hW
    exact Bool.noConfusion hW

/-- One more reference from outside the tables. -/
theorem Inv.incr (h : Inv p s g) (hr : g.role f = .page)
    (hw : p.priv → ∀ t up i, g.role t = .tab 0 up → i < 512 → leafTo (s.mem t i) f = true →
      has (s.mem t i) pteW = false) : Inv p (incrRef f s) (g.addExt f) := by
  have hok : FrameOk s f := h.pool.ok (by simp [hr])
  have hsame : SameTables s (incrRef f s) g (g.addExt f) := SameTables.incr hok
  rw [incrRef_eq hok] at hsame ⊢
  have hc := (h.count.page hr).1
  exact h.recount hr hsame (by omega) (by omega) hw

theorem SameTables.write (hr : g.role f = .page) (c : Nat → Word) : SameTables s (s.setFrame f c) g g :=
  ⟨rfl, rfl, rfl, fun _ _ _ => Iff.rfl, fun _ _ _ ht => setFrame_mem_of_ne (ne_of_role ht hr)⟩

/-- The content of a page is free to change. -/
theorem Inv.write (h : Inv p s g) (hr : g.role f = .page) (c : Nat → Word) : Inv p (s.setFrame f c) g := by
  have hsame := SameTables.write (s := s) hr c
  refine ⟨h.pool.frame_mem rfl rfl (fun f' hf' => ?_) rfl rfl (fun _ => Iff.rfl) (fun _ => Iff.rfl),
    h.tabs.frame hsame, h.leaves.frame h.pool hsame fun _ hf _ => hf, ?_⟩
  · exact setFrame_mem_of_ne (ne_of_role hf' hr)
  · refine CountOk.frame h hsame (by simp [hr]) (fun _ _ _ => rfl) (fun _ _ => rfl)
      (fun _ _ => rfl) (.inr ⟨hr, h.count.page hr⟩) ?_
    intro hp t up i ht hi hto hW _
    obtain ⟨hv, hu, rfl⟩ := leafTo_iff.mp hto
    exact h.count.priv hp ht hi hv hu hW hr

/-- Pushing a page that nothing maps. -/
theorem PoolOk.push (h : PoolOk s g) (hr : g.role f ≠ .free) (ho : g.role f ≠ .other) (n : Nat)
    (hpool : g'.pool = g.pool) (hfree : g'.free = f :: g.free) (hself : g'.role f = .free)
    (hother : ∀ f', f' ≠ f → (g'.role f' = .other ↔ g.role f' = .other))
    (hrole : ∀ f', f' ≠ f → (g'.role f' = .free ↔ g.role f' = .free)) :
    PoolOk ((s.setCount (s.pageIndex f) n).pushFree f) g' := by
  have hok : FrameOk s f := h.ok ho
  have hnm : f ∉ g.free := fun hm => hr ((h.mem_free f).mp hm)
  have hhead : BitVec.toNat (BitVec.ofNat 64 s.head) = s.head := by
    by_cases h0 : s.head = 0
    · rw [h0]; rfl
    · obtain ⟨_, -, hr0⟩ := h.head_free h0
      exact Nat.mod_eq_of_lt (h.ok (by simp [hr0])).word
  have hnext : (fun f' => (((s.setCount (s.pageIndex f) n).pushFree f).mem f' 0).toNat) =
      update (fun f' => (s.mem f' 0).toNat) f s.head := by
    funext f'
    by_cases e : f' = f
    · subst e
      rw [update_self]
      simp only [pushFree, setFrame_mem_self]
      exact hhead
    · rw [update_of_ne e]
      simp only [pushFree, setFrame_mem_of_ne e]
      rfl
  refine ⟨fun f' hf' => ?_, fun f' => ?_, ?_, ?_, fun f' => ?_, fun f' hf' => ?_⟩
  · rw [hpool] at hf'
    exact (h.frame f' hf').of_ram rfl
  · rw [hpool, h.pool]
    by_cases e : f' = f
    · subst e
      simp [hself, ho]
    · rw [ne_eq, ne_eq, hother f' e]
  · rw [hnext, hfree]
    exact h.linked.push hok.ne_zero hnm
  · rw [hfree]
    exact List.nodup_cons.mpr ⟨hnm, h.nodup⟩
  · rw [hfree, List.mem_cons]
    by_cases e : f' = f
    · subst e
      simp [hself]
    · rw [hrole f' e, ← h.mem_free]
      exact ⟨fun x => x.resolve_left e, .inr⟩
  · by_cases e : f' = f
    · subst e
      simp only [pushFree, setFrame_mem_self]
      show byteOf poisonWord 0 = poisonByte
      decide
    · simp only [pushFree, setFrame_mem_of_ne e]
      rw [hfree, List.mem_cons] at hf'
      exact h.poison f' (hf'.resolve_left e)

theorem SameTables.drop (hok : FrameOk s f) (hr : g.role f = .page) :
    SameTables s (decrRefAndMaybeFree f s) g (g.drop s f) := by
  rw [decrRef_eq hok]
  unfold Ghost.drop
  split
  · exact ⟨rfl, rfl, rfl, fun _ _ _ => Iff.rfl, fun _ _ _ _ => rfl⟩
  · refine ⟨rfl, rfl, rfl, role_update_tab (by simp [hr]) (fun _ _ => Role.noConfusion), ?_⟩
    intro t k up ht
    exact setFrame_mem_of_ne (ne_of_role ht hr)

/-- A reference from outside the tables is given up; the last one frees the page. -/
theorem Inv.drop (h : Inv p s g) (hr : g.role f = .page) (he : 0 < g.ext f) (hle : g.ext f + leafRefs s g f ≤ 65535) :
    Inv p (decrRefAndMaybeFree f s) (g.drop s f) := by
  have hok : FrameOk s f := h.pool.ok (by simp [hr])
  have hc := (h.count.page hr).1
  have hsame := SameTables.drop hok hr
  rw [decrRef_eq hok] at hsame ⊢
  unfold Ghost.drop at hsame ⊢
  by_cases hmany : 1 < s.refs f
  · simp only [hmany] at hsame ⊢
    refine h.recount hr hsame (by omega) (by omega) fun hp t up i ht hi hto => Bool.eq_false_iff.mpr fun hW => ?_
    -- a writable page has a single reference, and here there are two
    obtain ⟨hv, hu, rfl⟩ := leafTo_iff.mp hto
    have := h.count.priv hp ht hi hv hu hW hr
    omega
  · simp only [hmany, if_false] at hsame ⊢
    refine ⟨h.pool.push (by simp [hr]) (by simp [hr]) 0 rfl rfl (update_self ..) ?_ ?_,
      h.tabs.frame hsame, h.leaves.frame h.pool hsame fun f' hf' hpos => ?_, ?_⟩
    · intro f' hne
      simp only [update_of_ne hne]
    · intro f' hne
      simp only [update_of_ne hne]
    · have hne : f' ≠ f := by
        rintro rfl
        omega
      simp only [update_of_ne hne, hf']
    · refine CountOk.frame h hsame (by simp [hr])
        (fun f' hne hf' => refs_setCount_of_ne hok (h.pool.ok hf') hne)
        (fun f' hne => update_of_ne hne ..) (fun f' hne => update_of_ne hne ..)
        (.inl ⟨update_self .., by rw [refs_pushFree, refs_setCount_self],
          update_self ..⟩) ?_
      intro _ _ _ _ _ _ _ _ hpage
      simp at hpage

end Steps
end OpenV
