import OpenV.Mm.PageSteps

/- The steps on the words of a level-0 table. `Inv.setLeaf` is the general
   one: a reference moves between a leaf entry and a holder outside the tables,
   and the count of the page stays. Mapping, unmapping and changing the flags
   of a page are its instances. -/
namespace OpenV

section SetEntry
variable (s : Mm) (t i : Nat) (w : Word)

theorem Mm.setEntry_mem_self : (s.setEntry t i w).mem t i = w := if_pos ⟨rfl, rfl⟩

theorem Mm.setEntry_mem_of_ne {s : Mm} {t i t' : Nat} {w : Word} (h : t' ≠ t) : (s.setEntry t i w).mem t' = s.mem t' := by
  funext j
  exact if_neg fun e => h e.1

theorem Mm.setEntry_mem_of_index_ne {j : Nat} (t' : Nat) (h : j ≠ i) :
    (s.setEntry t i w).mem t' j = s.mem t' j := if_neg fun e => h e.2

/-- The word at any place after the write. -/
theorem Mm.setEntry_mem_cases (t' j : Nat) : t' = t ∧ j = i ∧ (s.setEntry t i w).mem t' j = w ∨
      (s.setEntry t i w).mem t' j = s.mem t' j := by
  by_cases h : t' = t ∧ j = i
  · obtain ⟨rfl, rfl⟩ := h
    exact .inl ⟨rfl, rfl, s.setEntry_mem_self _ _ _⟩
  · exact .inr (if_neg h)

end SetEntry

section Leaf
variable {s : Mm} {g : Ghost} {p : Policy} {t i : Nat} {up : Option (Nat × Nat)} {w : Word}

/-- No table pointer lives in a level-0 table. -/
theorem TabOk.setLeaf (h : TabOk p s g) (ht : g.role t = .tab 0 up) (hfz : ¬p.frozen t)
    {ext' : Nat → Nat} : TabOk p (s.setEntry t i w) { g with ext := ext' } := by
  refine h.above rfl (fun _ _ _ => Iff.rfl) (fun t' k up' hr => ?_) fun t' ht' => ?_
  · exact Mm.setEntry_mem_of_ne (ne_of_role hr ht)
  · exact Mm.setEntry_mem_of_ne fun e => hfz (e ▸ ht')

/-- Writing one leaf slot changes the count of a frame by what the slot says of it. -/
theorem leafRefs_setEntry (hp : PoolOk s g) (ht : g.role t = .tab 0 up) (hi : i < 512) (ext' : Nat → Nat) (f : Nat) :
    leafRefs (s.setEntry t i w) { g with ext := ext' } f + (leafTo (s.mem t i) f).toNat =
      leafRefs s g f + (leafTo w f).toNat := by
  have hmem : (t, i) ∈ g.pool ×ˢ Finset.range 512 :=
    Finset.mem_product.mpr ⟨(hp.pool t).mpr (by simp [ht]), Finset.mem_range.mpr hi⟩
  have hleaf : (g.role t).isLeafTable = true := Role.isLeafTable_iff.mpr ⟨up, ht⟩
  have hoff : ∀ b : Nat × Nat, b ≠ (t, i) →
      (s.setEntry t i w).mem b.1 b.2 = s.mem b.1 b.2 := by
    intro b hb
    rcases s.setEntry_mem_cases t i w b.1 b.2 with ⟨e1, e2, -⟩ | e
    · exact absurd (Prod.ext e1 e2) hb
    · exact e
  have h := countWhere_change
    (q := fun b => (g.role b.1).isLeafTable && leafTo ((s.setEntry t i w).mem b.1 b.2) f) hmem
    fun b _ hb => by rw [hoff b hb]
  simp only [s.setEntry_mem_self t i w, hleaf] at h
  exact h

/-- What a word put into a leaf slot has to satisfy. -/
structure WordOk (p : Policy) (s : Mm) (g : Ghost) (t : Nat) (w : Word) : Prop where
  valid : w = 0#64 ∨ has w pteV = true
  ok : has w pteV = true → p.leafOk (pteFlags w)
  user : has w pteV = true → has w pteU = true →
    g.role (ptePa w) = .page ∨ s.isManagedPage (ptePa w) = false
  kern : p.strict → p.kern t → has w pteV = true → has w pteU = false
  priv : p.priv → has w pteV = true → has w pteU = true → has w pteW = true →
    g.role (ptePa w) = .page → g.ext (ptePa w) + leafRefs s g (ptePa w) = 1

theorem LeafOk.setLeaf (h : LeafOk p s g) (hw : WordOk p s g t w) {ext' : Nat → Nat} :
    LeafOk p (s.setEntry t i w) { g with ext := ext' } := by
  refine leafOk_iff.mpr fun {t' up' j} hr hj => ?_
  rcases s.setEntry_mem_cases t i w t' j with ⟨rfl, -, e⟩ | e <;> rw [e]
  · exact ⟨hw.valid, hw.ok, hw.user, hw.kern⟩
  · exact (leafOk_iff.mp h hr hj).map rfl fun _ _ hto => hto

/-- The general leaf step: the sum of a page's holders stays. -/
theorem Inv.setLeaf (h : Inv p s g) (ht : g.role t = .tab 0 up) (hi : i < 512) (hfz : ¬p.frozen t)
    (hw : WordOk p s g t w) (ext' : Nat → Nat) (hext : ∀ f, g.role f = .page →
      ext' f + (leafTo w f).toNat = g.ext f + (leafTo (s.mem t i) f).toNat)
    (hext0 : ∀ f, g.role f ≠ .page → ext' f = 0) : Inv p (s.setEntry t i w) { g with ext := ext' } := by
  have hsum : ∀ f, g.role f = .page →
      ext' f + leafRefs (s.setEntry t i w) { g with ext := ext' } f = g.ext f + leafRefs s g f := by
    intro f hf
    have h1 := leafRefs_setEntry (w := w) h.pool ht hi ext' f
    have h2 := hext f hf
    omega
  refine ⟨h.pool.frame_mem rfl rfl (fun f hf => ?_) rfl rfl (fun _ => Iff.rfl) (fun _ => Iff.rfl),
    h.tabs.setLeaf ht hfz, h.leaves.setLeaf hw, ?_⟩
  · exact Mm.setEntry_mem_of_ne (ne_of_role hf ht)
  · refine ⟨h.count.free, h.count.tab, fun {f} hf => ?_, fun {f} hf => hext0 f hf, ?_⟩
    · simp only [hsum f hf]
      exact h.count.page hf
    · intro hp t' up' j hr hj
      rcases s.setEntry_mem_cases t i w t' j with ⟨-, -, e⟩ | e <;> rw [e]
      · intro hv hu hW hpage
        exact (hsum _ hpage).trans (hw.priv hp hv hu hW hpage)
      · intro hv hu hW hpage
        exact (hsum _ hpage).trans (h.count.priv hp hr hj hv hu hW hpage)

end Leaf
end OpenV
