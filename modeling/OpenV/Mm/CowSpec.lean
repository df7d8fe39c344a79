import OpenV.Mm.FreeSpec

/- Copy-on-write flags, and what `handle_store_page_fault` does: the space gets
   a private copy of the page, and no other space changes. -/
namespace OpenV

open Function

/-! ## Flags -/

/-- The flags of both copies of a leaf after a clone; `m` says that the page is managed. -/
def sharedFlags (m : Bool) (fl : Word) : Word :=
  ((if has fl pteU && m && has fl pteW then (fl &&& ~~~pteW) ||| pteCow else fl) &&& flagMask) ||| pteV

section Flags
variable {fl : Word} {k : Nat}

theorem getLsbD_bit (k j : Nat) (hk : k < 64) : (1#64 <<< k).getLsbD j = decide (j = k) := by
  by_cases hj : j < 64
  · rcases Nat.lt_trichotomy j k with h | h | h
    · simp [h, Nat.ne_of_lt h]
    · simp [h, hk]
    · have h2 : j - k ≠ 0 := by omega
      simp [h2, Nat.ne_of_gt h]
  · rw [BitVec.getLsbD_of_ge _ _ (by omega)]
    have : j ≠ k := by omega
    simp [this]

variable {j : Nat} {m : Bool}

/-- The bits of the flags of a private copy. -/
theorem getLsbD_uncowFlags (hj : j < 10) :
    (uncowFlags fl).getLsbD j = (((fl.getLsbD j && !decide (j = 8)) || decide (j = 2)) || decide (j = 0)) := by
  simp only [uncowFlags, pteCow, pteW, pteV, BitVec.getLsbD_or, BitVec.getLsbD_and, BitVec.getLsbD_not,
    getLsbD_bit _ _ (show 8 < 64 by decide), getLsbD_bit _ _ (show 2 < 64 by decide),
    getLsbD_bit _ _ (show 0 < 64 by decide), flagMask_getLsbD hj]
  have : j < 64 := by omega
  simp [this]

/-- The bits of the flags of a shared page. -/
theorem getLsbD_sharedFlags (hj : j < 10) : (sharedFlags m fl).getLsbD j =
      ((if has fl pteU && m && has fl pteW then (fl.getLsbD j && !decide (j = 2)) || decide (j = 8)
        else fl.getLsbD j) || decide (j = 0)) := by
  simp only [sharedFlags, BitVec.getLsbD_or, BitVec.getLsbD_and, flagMask_getLsbD hj, Bool.and_true]
  have h0 : pteV.getLsbD j = decide (j = 0) := getLsbD_bit 0 j (by decide)
  have h2 : pteW.getLsbD j = decide (j = 2) := getLsbD_bit 2 j (by decide)
  have h8 : pteCow.getLsbD j = decide (j = 8) := getLsbD_bit 8 j (by decide)
  have : j < 64 := by omega
  rw [h0]
  split
  · simp only [BitVec.getLsbD_or, BitVec.getLsbD_and, BitVec.getLsbD_not, h2, h8, this, decide_true,
      Bool.true_and]
  · rfl

theorem lowFlags_uncowFlags (fl : Word) : LowFlags (uncowFlags fl) :=
  .or (lowFlags_and_mask _) (by decide)

theorem lowFlags_sharedFlags (m : Bool) (fl : Word) : LowFlags (sharedFlags m fl) :=
  .or (lowFlags_and_mask _) (by decide)

theorem has_uncowFlags (fl : Word) : has (uncowFlags fl) pteV = true ∧ has (uncowFlags fl) pteW = true ∧
    has (uncowFlags fl) pteCow = false ∧ has (uncowFlags fl) pteR = has fl pteR ∧
    has (uncowFlags fl) pteX = has fl pteX ∧ has (uncowFlags fl) pteU = has fl pteU := by
  simp only [has_v, has_w, has_cow, has_r, has_x, has_u]
  refine ⟨?_, ?_, ?_, ?_, ?_, ?_⟩ <;> rw [getLsbD_uncowFlags (by decide)] <;> simp

theorem has_sharedFlags (m : Bool) (fl : Word) : has (sharedFlags m fl) pteV = true ∧
    has (sharedFlags m fl) pteR = has fl pteR ∧ has (sharedFlags m fl) pteX = has fl pteX ∧
    has (sharedFlags m fl) pteU = has fl pteU := by
  simp only [has_v, has_r, has_x, has_u]
  refine ⟨?_, ?_, ?_, ?_⟩ <;> rw [getLsbD_sharedFlags (by decide)] <;> split <;> simp

theorem has_sharedFlags_w (m : Bool) (fl : Word) :
    has (sharedFlags m fl) pteW = (has fl pteW && !(has fl pteU && m && has fl pteW)) := by
  rw [has_w (sharedFlags m fl), getLsbD_sharedFlags (by decide), ← has_w]
  cases has fl pteU <;> cases m <;> cases has fl pteW <;> rfl

theorem has_sharedFlags_cow (m : Bool) (fl : Word) :
    has (sharedFlags m fl) pteCow = (has fl pteCow || (has fl pteU && m && has fl pteW)) := by
  rw [has_cow (sharedFlags m fl), getLsbD_sharedFlags (by decide), ← has_cow]
  cases has fl pteU <;> cases m <;> cases has fl pteW <;> cases has fl pteCow <;> rfl

/-- A writable managed user page is shared read-only and marked. -/
theorem sharedFlags_writable (h : (has fl pteU && m && has fl pteW) = true) :
    has (sharedFlags m fl) pteW = false ∧ has (sharedFlags m fl) pteCow = true := by
  rw [has_sharedFlags_w, has_sharedFlags_cow, h, Bool.not_true, Bool.and_false, Bool.or_true]
  exact ⟨rfl, rfl⟩

/-- Any other leaf keeps its flags. -/
theorem sharedFlags_other (hl : LowFlags fl) (hv : has fl pteV = true)
    (h : (has fl pteU && m && has fl pteW) = false) : sharedFlags m fl = fl := by
  apply BitVec.eq_of_getLsbD_eq
  intro j _
  by_cases hj : j < 10
  · rw [getLsbD_sharedFlags hj, h]
    by_cases h0 : j = 0
    · subst h0
      rw [has_v] at hv
      simp [hv]
    · simp [h0]
  · rw [(lowFlags_sharedFlags m fl).getLsbD (by omega), hl.getLsbD (by omega)]

theorem sharedFlags_idem : sharedFlags m (sharedFlags m fl) = sharedFlags m fl := by
  refine sharedFlags_other (lowFlags_sharedFlags _ _) (has_sharedFlags m fl).1 ?_
  by_cases h : (has fl pteU && m && has fl pteW) = true
  · rw [(sharedFlags_writable h).1, Bool.and_false]
  · have hw : has (sharedFlags m fl) pteW = has fl pteW := by
      rw [has_sharedFlags_w, Bool.eq_false_iff.mpr h, Bool.not_false, Bool.and_true]
    rw [(has_sharedFlags m fl).2.2.2, hw]
    exact Bool.eq_false_iff.mpr h

theorem lowFlags_pteFlags (e : Word) : LowFlags (pteFlags e) := lowFlags_and_mask e

theorem pteFlags_v (e : Word) : has (pteFlags e) pteV = has e pteV := has_pteFlags e
theorem pteFlags_r (e : Word) : has (pteFlags e) pteR = has e pteR := has_pteFlags e
theorem pteFlags_w (e : Word) : has (pteFlags e) pteW = has e pteW := has_pteFlags e
theorem pteFlags_x (e : Word) : has (pteFlags e) pteX = has e pteX := has_pteFlags e
theorem pteFlags_u (e : Word) : has (pteFlags e) pteU = has e pteU := has_pteFlags e
theorem pteFlags_cow (e : Word) : has (pteFlags e) pteCow = has e pteCow := has_pteFlags e

end Flags

/-- What a policy has to be for copy-on-write to respect it. -/
structure Policy.Closed (p : Policy) : Prop where
  shared : ∀ fl m, p.leafOk fl → p.leafOk (sharedFlags m fl)
  uncow : ∀ fl, p.leafOk fl → has fl pteCow = true → has fl pteU = true ∧ p.leafOk (uncowFlags fl)
  kern : p.strict ∨ ∀ t, ¬p.kern t

/-- What holders outside the page tables see: nothing has changed. -/
structure Moves (s : Mm) (g : Ghost) (s' : Mm) (g' : Ghost) : Prop where
  ram : s'.ramStart = s.ramStart
  kernelRoot : s'.kernelRoot = s.kernelRoot
  pool : g'.pool = g.pool
  ext : g'.ext = g.ext
  data : ∀ f, 0 < g.ext f → s'.mem f = s.mem f

section Moves
variable {s s' s'' : Mm} {g g' g'' : Ghost} {p : Policy}

theorem Moves.refl : Moves s g s g := ⟨rfl, rfl, rfl, rfl, fun _ _ => rfl⟩

theorem Moves.trans (h : Moves s g s' g') (h' : Moves s' g' s'' g'') : Moves s g s'' g'' :=
  ⟨h'.ram.trans h.ram, h'.kernelRoot.trans h.kernelRoot, h'.pool.trans h.pool, h'.ext.trans h.ext,
    fun f hf => (h'.data f (by rw [h.ext]; exact hf)).trans (h.data f hf)⟩

/-- A page that someone holds is a page. -/
theorem Inv.page_of_ext (h : Inv p s g) {f : Nat} (hf : 0 < g.ext f) : g.role f = .page := by
  by_contra hne
  rw [h.count.ext hne] at hf
  exact Nat.lt_irrefl 0 hf

theorem Grows.moves (h : Grows s g s' g') (hi : Inv p s g) (hi' : Inv p s' g') : Moves s g s' g' := by
  refine ⟨h.ram, h.kernelRoot, h.pool, ?_, fun f hf => (h.page (hi.page_of_ext hf)).2.2⟩
  funext f
  by_cases hf : g.role f = .page
  · exact (h.page hf).2.1
  · rw [hi.count.ext hf, hi'.count.ext fun hf' => hf (h.page_old hf')]

theorem Frees.moves (h : Frees s g s' g') (hi : Inv p s g) (hi' : Inv p s' g') : Moves s g s' g' := by
  refine ⟨h.ram, h.kernelRoot, h.pool, ?_, fun f hf => (h.page (h.held (hi.page_of_ext hf) hf)).2.2⟩
  funext f
  by_cases hf' : g'.role f = .page
  · exact (h.page hf').2.1
  · rw [hi'.count.ext hf']
    by_contra hne
    have hpos : 0 < g.ext f := Nat.pos_of_ne_zero fun e => hne e.symm
    exact hf' (h.held (hi.page_of_ext hpos) hpos)

end Moves

/-! ## The store fault -/

section Store
variable {s : Mm} {g : Ghost} {p : Policy} {root va : Nat}

theorem walkStep_cases (s : Mm) (u hg : String) (pt va level : Nat) :
    (∃ q, walkStep s u hg pt va level = .ok q ∧ tableAt s pt (vpn va level) = some q) ∨
      ∃ e, walkStep s u hg pt va level = .error e ∧ tableAt s pt (vpn va level) = none := by
  unfold walkStep tableAt
  cases hv : has (s.mem pt (vpn va level)) pteV <;> cases hl : isLeaf (s.mem pt (vpn va level)) <;>
    simp [hv, hl]

/-- The walks of the kernel find the level-0 table of the space. -/
theorem walkTo_cases (s : Mm) (u hg : String) (root va : Nat) :
    (∃ t, walkTo s u hg root va = .ok t ∧ leafTable s root (vpn va 2) (vpn va 1) = some t) ∨
      ∃ e, walkTo s u hg root va = .error e ∧ leafTable s root (vpn va 2) (vpn va 1) = none := by
  unfold walkTo leafTable
  rcases walkStep_cases s u hg root va 2 with ⟨q, hw, ht⟩ | ⟨e, hw, ht⟩
  · rw [hw, ht]
    exact walkStep_cases s u hg q va 1
  · rw [hw, ht]
    exact .inr ⟨e, rfl, rfl⟩

/-- The space of `root` has a private copy of the page at `va`. -/
structure Copied (p : Policy) (s : Mm) (g : Ghost) (s' : Mm) (g' : Ghost) (root va : Nat) : Prop where
  inv : Inv p s' g'
  moves : Moves s g s' g'
  small : Small s' g'
  total : ∀ f, 0 < g.ext f → leafRefs s' g' f ≤ leafRefs s g f
  role : ∀ t k up, g'.role t = .tab k up ↔ g.role t = .tab k up
  keeps : Keeps (· ≠ root) s g s' g'
  leaf : 4 ≤ vpn va 2 → ∃ new, new % 4096 = 0 ∧ new < 2 ^ 64 ∧
    has (leafAt s root (indices va)) pteV = true ∧ has (leafAt s root (indices va)) pteU = true ∧
    has (leafAt s root (indices va)) pteCow = true ∧
    (∀ {l}, UserIx l → leafAt s' root l = if l = indices va then
      mkPte new (uncowFlags (pteFlags (leafAt s root (indices va)))) else leafAt s root l) ∧
    s'.mem new = s.mem (ptePa (leafAt s root (indices va))) ∧
    ∀ {l}, UserIx l → l ≠ indices va → has (leafAt s root l) pteV = true →
      has (leafAt s root l) pteU = true →
      s'.mem (ptePa (leafAt s root l)) = s.mem (ptePa (leafAt s root l))

variable {t i new pa : Nat} {up : Option (Nat × Nat)} {fl : Word}

/-- The leaf entry `t`, `i` gets the fresh page `new` instead of its page, which loses a reference. -/
theorem Inv.replaceLeaf (h : Inv p s g) (ht : g.role t = .tab 0 up) (hi : i < 512) (hkt : p.strict → ¬p.kern t)
    (hfz : ¬p.frozen t) (hold : leafTo (s.mem t i) (ptePa (s.mem t i)) = true)
    (hpage : g.role (ptePa (s.mem t i)) = .page) (hnew : Fresh s g new) (hne : new ≠ ptePa (s.mem t i))
    (hlow : LowFlags fl) (hv : has fl pteV = true) (hu : has fl pteU = true) (hok : p.leafOk fl) :
    Inv p (s.setEntry t i (mkPte new fl))
      { g with ext := update (update g.ext (ptePa (s.mem t i))
        (g.ext (ptePa (s.mem t i)) + 1)) new 0 } := by
  have hokn : FrameOk s new := h.pool.ok (by simp [hnew.role])
  have hwpa : ptePa (mkPte new fl) = new := ptePa_mkPte hokn.aligned hokn.word hlow
  refine h.setLeaf ht hi hfz ⟨.inr (by rw [mkPte_v, hv]), fun _ => ?_, fun _ _ => .inl ?_, fun hs hk => ?_,
    fun _ _ _ _ _ => ?_⟩ _ (fun f hf => ?_) (fun f hf => ?_)
  · rw [pteFlags_mkPte new hlow]
    exact hok
  · rw [hwpa]
    exact hnew.role
  · exact absurd hk (hkt hs)
  · rw [hwpa, hnew.ext, hnew.refs]
  · by_cases e : f = new
    · subst e
      have h1 : leafTo (mkPte f fl) f = true :=
        leafTo_iff.mpr ⟨by rw [mkPte_v, hv], by rw [mkPte_u, hu], hwpa⟩
      have h2 : leafTo (s.mem t i) f = false := by
        rw [← Bool.not_eq_true, leafTo_iff]
        exact fun x => hne x.2.2.symm
      rw [update_self, h1, h2, hnew.ext]
      rfl
    · have h1 : leafTo (mkPte new fl) f = false := by
        rw [← Bool.not_eq_true, leafTo_iff, hwpa]
        exact fun x => e x.2.2.symm
      rw [update_of_ne e, h1]
      by_cases e' : f = ptePa (s.mem t i)
      · subst e'
        rw [update_self, hold]
        rfl
      · have h2 : leafTo (s.mem t i) f = false := by
          rw [← Bool.not_eq_true, leafTo_iff]
          exact fun x => e' x.2.2.symm
        rw [update_of_ne e', h2]
  · have e : f ≠ new := by
      rintro rfl
      exact hf hnew.role
    have e' : f ≠ ptePa (s.mem t i) := by
      rintro rfl
      exact hf hpage
    rw [update_of_ne e, update_of_ne e']
    exact h.count.ext hf

/-- The leaf entry `t`, `i` holds `w`, which maps the page `new`; its old page has one holder less. -/
structure Replaced (p : Policy) (s : Mm) (g : Ghost) (s' : Mm) (g' : Ghost) (t i new : Nat) (w : Word) :
    Prop where
  inv : Inv p s' g'
  small : Small s' g'
  total : ∀ f, f ≠ new → leafRefs s' g' f ≤ leafRefs s g f
  ram : s'.ramStart = s.ramStart
  kernelRoot : s'.kernelRoot = s.kernelRoot
  pool : g'.pool = g.pool
  ext : ∀ f, g'.ext f = if f = new then 0 else g.ext f
  role : ∀ t k up, g'.role t = .tab k up ↔ g.role t = .tab k up
  data : ∀ f, f = new ∨ 0 < g.ext f → s'.mem f = s.mem f
  keeps : ∀ {R : Nat → Prop}, (∀ r, R r → ∀ j1 j2, 4 ≤ j2 → ¬At g r [j1, j2] t) → Keeps R s g s' g'
  leaf : ∀ {r i1 i2 l}, At g r [i1, i2] t → UserIx l →
    leafAt s' r l = if l = [i, i1, i2] then w else leafAt s r l
  mapped : ∀ {r i1 i2 l}, At g r [i1, i2] t → UserIx l → l ≠ [i, i1, i2] →
    has (leafAt s r l) pteV = true → has (leafAt s r l) pteU = true →
    s'.mem (ptePa (leafAt s r l)) = s.mem (ptePa (leafAt s r l))

theorem Inv.replaceDrop (h : Inv p s g) (hs : Small s g) (ht : g.role t = .tab 0 up) (hi : i < 512)
    (hkt : p.strict → ¬p.kern t) (hfz : ¬p.frozen t) (hto : leafTo (s.mem t i) pa = true)
    (hpage : g.role pa = .page) (hnew : Fresh s g new) (hne : new ≠ pa) (hlow : LowFlags fl)
    (hv : has fl pteV = true) (hu : has fl pteU = true) (hok : p.leafOk fl) :
    ∃ g', Replaced p s g (decrRefAndMaybeFree pa (s.setEntry t i (mkPte new fl))) g' t i new
      (mkPte new fl) := by
  obtain ⟨-, -, hpa⟩ := leafTo_iff.mp hto
  have h1 := h.replaceLeaf ht hi hkt hfz (by rw [hpa]; exact hto) (by rw [hpa]; exact hpage) hnew
    (by rw [hpa]; exact hne) hlow hv hu hok
  rw [hpa] at h1
  have hwpa : ptePa (mkPte new fl) = new := by
    have hokn : FrameOk s new := h.pool.ok (by simp [hnew.role])
    exact ptePa_mkPte hokn.aligned hokn.word hlow
  generalize mkPte new fl = w at *
  have hcount := leafRefs_setEntry (w := w) h.pool ht hi
    (update (update g.ext pa (g.ext pa + 1)) new 0)
  generalize hg1 : ({ g with ext := update (update g.ext pa (g.ext pa + 1)) new 0 }
    : Ghost) = g1 at *
  have hrole1 : g1.role = g.role := by rw [← hg1]
  have hext1 : ∀ f, g1.ext f = if f = new then 0 else if f = pa then g.ext f + 1 else g.ext f := by
    intro f
    rw [← hg1]
    by_cases e1 : f = new
    · simp [e1]
    · by_cases e2 : f = pa
      · subst e2
        simp [e1]
      · simp [e1, e2]
  have hpa1 : g1.ext pa = g.ext pa + 1 := by rw [hext1, if_neg hne.symm, if_pos rfl]
  have hwf : ∀ f, f ≠ new → leafTo w f = false := fun f hf =>
    Bool.eq_false_iff.mpr fun x => hf ((leafTo_iff.mp x).2.2.symm.trans hwpa)
  have hpage1 : g1.role pa = .page := by rw [hrole1, hpage]
  have hle : g1.ext pa + leafRefs (s.setEntry t i w) g1 pa ≤ 65535 := by
    have h5 := hcount pa
    have h6 := hs pa hpage
    rw [hto, hwf pa hne.symm] at h5
    simp only [Bool.toNat_true, Bool.toNat_false] at h5
    omega
  have hpos : 0 < g1.ext pa := by omega
  have h2 := h1.drop hpage1 hpos hle
  have hok1 : FrameOk (s.setEntry t i w) pa := h1.pool.ok (by simp [hpage1])
  have hsame := SameTables.drop hok1 hpage1
  have hkeep : ∀ {R}, Keeps R (s.setEntry t i w) g1 (decrRefAndMaybeFree pa (s.setEntry t i w))
      (g1.drop (s.setEntry t i w) pa) := Keeps.drop h1 hpage1 hpos hle
  have hext2 : ∀ f, (g1.drop (s.setEntry t i w) pa).ext f = if f = new then 0 else g.ext f := by
    intro f
    rw [Ghost.drop_ext h1 hpage1 hpos]
    by_cases e : f = pa
    · subst e
      rw [update_self, if_neg hne.symm]
      omega
    · rw [update_of_ne e, hext1, if_neg e]
  have hmem : ∀ f, f = new ∨ 0 < g.ext f →
      (decrRefAndMaybeFree pa (s.setEntry t i w)).mem f = s.mem f := by
    intro f hf
    have hfp : g.role f = .page ∧ (f = pa → 0 < g.ext f) := by
      rcases hf with rfl | hf
      · exact ⟨hnew.role, fun e => absurd e hne⟩
      · exact ⟨h.page_of_ext hf, fun _ => hf⟩
    rw [drop_mem hok1 fun hlast e => ?_]
    · exact Mm.setEntry_mem_of_ne (ne_of_role hfp.1 ht)
    · have hc := (h1.count.page hpage1).1
      subst e
      omega
  have htotal : ∀ f, f ≠ new → leafRefs (decrRefAndMaybeFree pa (s.setEntry t i w))
      (g1.drop (s.setEntry t i w) pa) f ≤ leafRefs s g f := by
    intro f e
    have h5 := hcount f
    rw [hwf f e] at h5
    rw [leafRefs_frame hsame]
    simp only [Bool.toNat_false] at h5
    omega
  refine ⟨_, h2, fun f hf => ?_, htotal, hsame.ram.trans rfl, hsame.kernelRoot.trans rfl, ?_, hext2,
    fun t' k up' => ?_, hmem, fun {R} hR => ?_, fun {r i1 i2 l} hat hl => ?_,
    fun {r i1 i2 l} hat hl hne' hv' hu' => ?_⟩
  · have hf1 := Ghost.drop_page hf
    rw [hrole1] at hf1
    rw [hext2]
    by_cases e : f = new
    · subst e
      rw [if_pos rfl, leafRefs_frame hsame]
      have h5 := hcount f
      have h7 := hnew.refs
      have h8 : (leafTo w f).toNat ≤ 1 := Bool.toNat_le _
      omega
    · rw [if_neg e]
      have h5 := htotal f e
      have h6 := hs f hf1
      omega
  · rw [hsame.pool, ← hg1]
  · rw [hsame.role, hrole1]
  · have := Keeps.setLeaf (i := i) h ht hR w (update (update g.ext pa (g.ext pa + 1)) new 0)
    rw [hg1] at this
    exact this.trans hkeep
  · have hr := hat.root_role
    rw [(hkeep (R := fun _ => True)).leaf trivial (by rw [hrole1]; exact hr) hl,
      leafAt_setLeaf h hat hr hl]
    simp only [true_and]
  · have hr := hat.root_role
    have hl1 : leafAt (s.setEntry t i w) r l = leafAt s r l := by
      rw [leafAt_setLeaf h hat hr hl, if_neg fun x => hne' x.2]
    have h5 := (hkeep (R := fun _ => True)).data trivial (by rw [hrole1]; exact hr) hl
      (by rw [hl1]; exact hv') (by rw [hl1]; exact hu')
    rw [hl1] at h5
    rw [h5]
    exact Mm.setEntry_mem_of_ne (ne_of_leafRefs_pos h ht (leafRefs_pos_of_leafAt h hr hl hv' hu'))

/-- The frame in hand: allocated and filled. -/
theorem Inv.filled (h : Inv p s g) (h0 : s.head ≠ 0) (content : Nat → Word) :
    Inv p (s.allocated.setFrame s.head content) (g.alloc s.head) ∧
      Fresh (s.allocated.setFrame s.head content) (g.alloc s.head) s.head ∧
      SameTables s (s.allocated.setFrame s.head content) g (g.alloc s.head) ∧
      (∀ {R}, Keeps R s g (s.allocated.setFrame s.head content) (g.alloc s.head)) ∧
      ∀ f, f ≠ s.head → (s.allocated.setFrame s.head content).mem f = s.mem f := by
  obtain ⟨hfresh, -⟩ := h.fresh_allocated h0
  have h1 := h.alloc h0
  have hsame := SameTables.alloc h.pool h0
  have hsame' := SameTables.write (s := s.allocated) hfresh.role content
  have hboth : SameTables s (s.allocated.setFrame s.head content) g (g.alloc s.head) :=
    ⟨hsame'.pool.trans hsame.pool, rfl, rfl, fun t k up => (hsame'.role t k up).trans (hsame.role t k up),
      fun t k up ht => (hsame'.mem t k up ((hsame.role t k up).mpr ht)).trans (hsame.mem t k up ht)⟩
  refine ⟨h1.write hfresh.role content, ⟨hfresh.role, hfresh.ext, ?_⟩, hboth,
    (Keeps.alloc h h0).trans (Keeps.write h1 hfresh.role hfresh.refs content), fun f hf => ?_⟩
  · rw [leafRefs_frame hsame', hfresh.refs]
  · rw [Mm.setFrame_mem_of_ne hf]
    exact Mm.setFrame_mem_of_ne hf

/-- What the copy-on-write branch of the store fault does: a fresh frame gets the content of the
page and takes its place in the entry. -/
theorem Copied.of_cow {e : Word} (hp : p.Closed) (h : Inv p s g) (hs : Small s g) (hr : g.role root = .tab 2 none)
    (ht : g.role t = .tab 0 up) (htable : leafTable s root (vpn va 2) (vpn va 1) = some t)
    (he : s.mem t (vpn va 0) = e) (hpa : ptePa e = pa) (hv : has e pteV = true) (hcow : has e pteCow = true)
    (hman : s.isManagedPage pa = true) (h0 : s.head ≠ 0) : ∃ g', Copied p s g (decrRefAndMaybeFree pa
      ((s.allocated.setFrame s.head (s.allocated.mem pa)).setEntry t (vpn va 0)
        (mkPte s.head (uncowFlags (pteFlags e))))) g' root va := by
  have hi := vpn_lt va 0
  obtain ⟨rest, -, hfree⟩ := h.pool.head_free h0
  have hokl := hp.uncow _ (he ▸ h.leaves.ok ht hi (he ▸ hv)) (by rw [pteFlags_cow, hcow])
  have hu : has e pteU = true := by rw [← pteFlags_u, hokl.1]
  have hpage : g.role pa = .page := by
    have := h.leaves.user ht hi (he ▸ hv) (he ▸ hu)
    rw [he, hpa] at this
    exact this.resolve_right fun x => by rw [hman] at x; cases x
  have hne : s.head ≠ pa := ne_of_role hfree hpage
  have hkt : p.strict → ¬p.kern t := fun hst hk => by
    have := h.leaves.kern hst hk ht hi (he ▸ hv)
    rw [he, hu] at this
    cases this
  have hfz : ¬p.frozen t := fun hf => by
    have hk := (h.tabs.frozen hf).1
    rcases hp.kern with hst | hno
    · exact hkt hst hk
    · exact hno t hk
  obtain ⟨h2, hfl, hsame, hkeep, hmem⟩ := h.filled h0 (s.allocated.mem pa)
  have hmnew : (s.allocated.setFrame s.head (s.allocated.mem pa)).mem s.head = s.mem pa := by
    rw [Mm.setFrame_mem_self]
    exact Mm.setFrame_mem_of_ne hne.symm
  have hext1 : ∀ f, f ≠ s.head → (g.alloc s.head).ext f = g.ext f := fun f hf => update_of_ne hf ..
  have hpage1 : ∀ f, (g.alloc s.head).role f = .page → f = s.head ∨ g.role f = .page := fun f hf => by
    by_cases ef : f = s.head
    · exact .inl ef
    · simp only [Ghost.alloc, update_of_ne ef] at hf
      exact .inr hf
  have hpagepa : (g.alloc s.head).role pa = .page := by
    simp only [Ghost.alloc, update_of_ne hne.symm, hpage]
  generalize s.allocated.setFrame s.head (s.allocated.mem pa) = s2 at *
  generalize g.alloc s.head = g1 at *
  have hs2 : Small s2 g1 := by
    intro f hf
    rcases hpage1 f hf with rfl | hf'
    · rw [hfl.refs, hfl.ext]
      decide
    · rw [leafRefs_frame hsame, hext1 f (ne_of_role hf' hfree)]
      exact hs f hf'
  have ht1 : g1.role t = .tab 0 up := (hsame.role _ _ _).mpr ht
  have hmt : s2.mem t = s.mem t := hmem t (ne_of_role ht hfree)
  have hto : leafTo (s2.mem t (vpn va 0)) pa = true := by
    rw [hmt, he]
    exact leafTo_iff.mpr ⟨hv, hu, hpa⟩
  obtain ⟨g', hrep⟩ := h2.replaceDrop hs2 ht1 hi hkt hfz hto hpagepa hfl hne
    (lowFlags_uncowFlags (pteFlags e)) (has_uncowFlags _).1 ((has_uncowFlags _).2.2.2.2.2.trans hokl.1) hokl.2
  have hat : 4 ≤ vpn va 2 → At g1 root [vpn va 1, vpn va 2] t := fun h4 =>
    (at_of_leafTable h hr (vpn_lt va 2) h4 (vpn_lt va 1) htable).map fun t k up => (hsame.role t k up).mpr
  have hleaf : leafAt s root (indices va) = e := by
    rw [indices, leafAt, htable]
    exact he
  refine ⟨g', hrep.inv, ⟨hrep.ram.trans hsame.ram, hrep.kernelRoot.trans hsame.kernelRoot, hrep.pool.trans hsame.pool, ?_, ?_⟩,
    hrep.small, fun f hf => ?_, fun t k up => (hrep.role t k up).trans (hsame.role t k up), ?_,
    fun h4 => ?_⟩
  · funext f
    rw [hrep.ext]
    split
    · rename_i ef
      rw [ef]
      exact (h.count.ext (by simp [hfree])).symm
    · rename_i ef
      exact hext1 f ef
  · intro f hf
    have hfh : f ≠ s.head := ne_of_role (h.page_of_ext hf) hfree
    rw [hrep.data f (.inr (by rw [hext1 f hfh]; exact hf)), hmem f hfh]
  · have hfh : f ≠ s.head := ne_of_role (h.page_of_ext hf) hfree
    rw [← leafRefs_frame hsame]
    exact hrep.total f hfh
  · refine hkeep.trans (hrep.keeps fun r hner j1 j2 h4 hat' => ?_)
    have hat0 : At g r [j1, j2] t := hat'.map fun t k up => (hsame.role t k up).mp
    exact not_at_of_leafTable h hr (vpn_lt va 2) (vpn_lt va 1) htable (.inl hner) h4 hat0
  · have hok : FrameOk s s.head := h.pool.ok (by simp [hfree])
    rw [hleaf]
    refine ⟨s.head, hok.aligned, hok.word, hv, hu, hcow, fun {l} hl => ?_, ?_, fun {l} hl hlne hv' hu' => ?_⟩
    · rw [hrep.leaf (hat h4) hl, (hkeep (R := fun _ => True)).leaf trivial hr hl]
      rfl
    · rw [hrep.data _ (.inl rfl), hmnew, hpa]
    · have hk := (hkeep (R := fun _ => True)).leaf trivial hr hl
      have hd := (hkeep (R := fun _ => True)).data trivial hr hl hv' hu'
      have := hrep.mapped (hat h4) hl hlne (by rw [hk]; exact hv') (by rw [hk]; exact hu')
      rw [hk] at this
      rw [this, hd]

/-- The leaf word `e` is one that a store fault copies. -/
def Cowable (s : Mm) (e : Word) : Prop :=
  has e pteV = true ∧ has e pteCow = true ∧ s.isManagedPage (ptePa e) = true

/-- `handle_store_page_fault` copies a page that is to be copied if there is a frame for it, and fails
otherwise. -/
theorem handleStorePageFault_cases (h : Inv p s g) (hr : g.role root = .tab 2 none) :
    (handleStorePageFault root va).wp
      (fun _ s' => (Cowable s (leafAt s root (indices va)) ∧ s.head ≠ 0) ∧
        ∃ t up e, g.role t = .tab 0 up ∧ leafTable s root (vpn va 2) (vpn va 1) = some t ∧
          s.mem t (vpn va 0) = e ∧ leafAt s root (indices va) = e ∧ s' = decrRefAndMaybeFree (ptePa e)
            ((s.allocated.setFrame s.head (s.allocated.mem (ptePa e))).setEntry t (vpn va 0)
              (mkPte s.head (uncowFlags (pteFlags e)))))
      (fun s' => s' = s ∧ ¬(Cowable s (leafAt s root (indices va)) ∧ s.head ≠ 0)) (fun _ => False) s := by
  simp only [handleStorePageFault, Cmd.wp_bind, Cmd.wp_get]
  rcases walkTo_cases s "no mapping at level" "huge page (1GB/2MB) not supported for COW" root va with
    ⟨t, hw, htable⟩ | ⟨e, hw, htable⟩
  · have hleaf : leafAt s root (indices va) = s.mem t (vpn va 0) := by
      rw [indices, leafAt, htable]
    rw [hw, hleaf]
    simp only [Cmd.wp_ite, Cmd.wp_fail, Cmd.wp_bind, wp_allocOr h.pool, Cmd.wp_modify, pteFlags_cow]
    refine ⟨fun hv => ⟨trivial, fun x => ?_⟩, fun hv => ⟨fun hc => ⟨fun hman =>
      ⟨trivial, fun x => ?_⟩, fun hman => ⟨fun h0 => ⟨trivial, fun x => x.2 h0⟩, fun h0 => ?_⟩⟩,
      fun hc => ⟨trivial, fun x => hc x.1.2.1⟩⟩⟩
    · rw [x.1.1] at hv
      cases hv
    · rw [x.1.2.2] at hman
      cases hman
    · obtain ⟨up, ht⟩ := role_of_leafTable h hr (vpn_lt va 2) (vpn_lt va 1) htable
      exact ⟨⟨⟨by simpa using hv, hc, by simpa using hman⟩, h0⟩, t, up, _, ht, htable, rfl, rfl, rfl⟩
  · have hleaf : leafAt s root (indices va) = 0#64 := by
      rw [indices, leafAt, htable]
    rw [hw, hleaf]
    simp only [Cmd.wp_fail]
    exact ⟨trivial, fun x => by simp [Cowable] at x⟩

/-- `handle_store_page_fault` makes a private copy, or fails and changes nothing: there is nothing
to copy, or no frame for the copy. -/
theorem handleStorePageFault_wp (hp : p.Closed) (h : Inv p s g) (hs : Small s g)
    (hr : g.role root = .tab 2 none) :
    (handleStorePageFault root va).wp
      (fun _ s' => Cowable s (leafAt s root (indices va)) ∧ s.head ≠ 0 ∧ ∃ g', Copied p s g s' g' root va)
      (fun s' => s' = s ∧ (s.head = 0 ∨ ¬Cowable s (leafAt s root (indices va)))) (fun _ => False) s := by
  refine Cmd.wp_mono (handleStorePageFault_cases h hr) (fun _ s' hd => ?_) (fun s' hd => ⟨hd.1, ?_⟩)
  · obtain ⟨⟨hc, h0⟩, t, up, e, ht, htable, he, hleaf, rfl⟩ := hd
    obtain ⟨hv, hcow, hman⟩ := hleaf ▸ hc
    exact ⟨hc, h0, Copied.of_cow hp h hs hr ht htable he rfl hv hcow hman h0⟩
  · exact (not_and_or.mp hd.2).symm.imp_left not_not.mp

end Store
end OpenV
