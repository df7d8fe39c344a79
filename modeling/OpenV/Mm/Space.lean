import OpenV.Mm.TableSteps

/- An address space as the hardware sees it: the leaf word its page tables give
   for each page, as a function of the three table indices, innermost first.
   The steps of the layout invariant are restated as what they do to this
   function: making, hanging and freeing tables changes nothing, and writing a
   slot of a level-0 table changes one space at one page. -/
namespace OpenV

/-- The table that entry `i` of `t` points to. -/
def tableAt (s : Mm) (t i : Nat) : Option Nat :=
  if has (s.mem t i) pteV && !isLeaf (s.mem t i) then some (ptePa (s.mem t i)) else none

/-- The level-0 table for the indices `i2`, `i1`. -/
def leafTable (s : Mm) (r i2 i1 : Nat) : Option Nat := (tableAt s r i2).bind (tableAt s · i1)

/-- The leaf word of the space of root `r` at a page; zero when there is no table for it. -/
def leafAt (s : Mm) (r : Nat) : List Nat → Word
  | [i0, i1, i2] => match leafTable s r i2 i1 with
    | some t => s.mem t i0
    | none => 0#64
  | _ => 0#64

/-- The indices of a virtual address, innermost first. -/
def indices (va : Nat) : List Nat := [vpn va 0, vpn va 1, vpn va 2]

/-- `t` is the table of `r` at a path of indices, the innermost first. -/
inductive At (g : Ghost) (r : Nat) : List Nat → Nat → Prop where
  | root : g.role r = .tab 2 none → At g r [] r
  | down {path t k i q} : At g r path t → g.role q = .tab k (some (t, i)) → At g r (i :: path) q

section Paths
variable {s : Mm} {g : Ghost} {p : Policy} {r t q i : Nat} {path : List Nat}

theorem vpn_eq (va level : Nat) : vpn va level = va / 2 ^ (12 + 9 * level) % 512 := by
  rw [vpn, Nat.shiftRight_eq_div_pow]
  exact Nat.and_two_pow_sub_one_eq_mod _ 9

theorem vpn_lt (va level : Nat) : vpn va level < 512 :=
  Nat.lt_of_le_of_lt Nat.and_le_right (by decide)

theorem tableAt_of_eq (h : s.mem t i = tablePte q) (hq : FrameOk s q) : tableAt s t i = some q := by
  simp [tableAt, h, ptePa_tablePte_of hq]

theorem tableAt_zero (h : s.mem t i = 0#64) : tableAt s t i = none := by
  simp [tableAt, h]

theorem At.level (h : TabOk p s g) : ∀ {path t}, At g r path t → ∃ k up, g.role t = .tab k up ∧ k + path.length = 2
  | _, _, .root hr => ⟨2, none, hr, rfl⟩
  | _, _, .down (k := k) hat hq => by
    obtain ⟨k', up, ht, hlen⟩ := hat.level h
    obtain ⟨⟨up', ht'⟩, -⟩ := h.up hq
    rw [ht] at ht'
    cases ht'
    refine ⟨k, _, hq, ?_⟩
    rw [List.length_cons]
    omega

variable {i1 i2 k : Nat}

theorem At.leaf_role (hat : At g r [i1, i2] t) (h : TabOk p s g) : ∃ up, g.role t = .tab 0 up := by
  obtain ⟨k, up, ht, hk⟩ := hat.level h
  obtain rfl : k = 0 := by simpa using hk
  exact ⟨up, ht⟩

theorem At.root_role : ∀ {path t}, At g r path t → g.role r = .tab 2 none
  | _, _, .root hr => hr
  | _, _, .down hat _ => hat.root_role

/-- A table is at one path of one root. -/
theorem At.unique {r' : Nat} {path' : List Nat} (h : At g r path t) (h' : At g r' path' t) :
    r = r' ∧ path = path' := by
  induction h generalizing path' with
  | root hr =>
    cases h' with
    | root _ => exact ⟨rfl, rfl⟩
    | down _ hq =>
      rw [hr] at hq
      cases hq
  | down _ hq ih =>
    cases h' with
    | root hr =>
      rw [hr] at hq
      cases hq
    | down hat' hq' =>
      rw [hq] at hq'
      cases hq'
      obtain ⟨rfl, rfl⟩ := ih hat'
      exact ⟨rfl, rfl⟩

/-- No table of a process is the kernel's. -/
theorem At.not_kern (h : TabOk p s g) : ∀ {path t}, At g r path t → ¬p.kern t
  | _, _, .root hr => fun hk => by
    rcases h.kern hk with e | ⟨q, j, e, -⟩ <;> rw [hr] at e <;> cases e
  | _, _, .down hat hq => fun hk => by
    rcases h.kern hk with e | ⟨q', j, e, hk'⟩
    · rw [hq] at e
      cases e
    · rw [hq] at e
      cases e
      exact hat.not_kern h hk'

/-- A table of a process hangs where its path says. -/
theorem At.tableAt (h : Inv p s g) (hat : At g r (i :: path) q) :
    ∃ t, At g r path t ∧ tableAt s t i = some q ∧ s.mem t i = tablePte q := by
  cases hat with
  | down hat hq =>
    obtain ⟨-, -, hm, -⟩ := h.tabs.up hq
    exact ⟨_, hat, tableAt_of_eq hm (h.pool.ok (by simp [hq])), hm⟩

theorem At.leafTable (h : Inv p s g) (hat : At g r [i1, i2] t) : leafTable s r i2 i1 = some t := by
  obtain ⟨q, hq, hm, -⟩ := hat.tableAt h
  obtain ⟨r', hr', hm', -⟩ := hq.tableAt h
  cases hr'
  simp [OpenV.leafTable, hm', hm]

/-- What the entries of a table lead to. -/
theorem tableAt_cases (h : Inv p s g) {up : Option (Nat × Nat)} (ht : g.role t = .tab (k + 1) up) (hi : i < 512)
    (hq : tableAt s t i = some q) :
    s.mem t i = tablePte q ∧ (g.role q = .tab k (some (t, i)) ∨ k = 1 ∧ i < 4 ∧ g.role q = .tab 1 none) := by
  cases h.tabs.slot ht hi with
  | empty h0 =>
    rw [tableAt_zero h0] at hq
    cases hq
  | child q' hm hr =>
    rw [tableAt_of_eq hm (h.pool.ok (by simp [hr]))] at hq
    cases hq
    exact ⟨hm, .inl hr⟩
  | kernel hk hi4 h0 hm =>
    obtain ⟨q', hq', hr⟩ := h.tabs.root hi4 h0
    rw [hq'] at hm
    rw [tableAt_of_eq hm (h.pool.ok (by simp [hr]))] at hq
    cases hq
    exact ⟨hm, .inr ⟨hk, hi4, hr⟩⟩
  | mega _ _ hM =>
    simp [tableAt, hM.2.1] at hq

/-- In the user part of a root, what is found is at its path. -/
theorem at_of_tableAt (h : Inv p s g) (hat : At g r path t) (hi : i < 512) (hlen : path.length < 2)
    (hlow : path = [] → 4 ≤ i) (hq : tableAt s t i = some q) : At g r (i :: path) q := by
  obtain ⟨k, up, ht, hk⟩ := hat.level h.tabs
  obtain ⟨k, rfl⟩ : ∃ k', k = k' + 1 := ⟨k - 1, by omega⟩
  obtain ⟨-, hr | ⟨rfl, hi4, -⟩⟩ := tableAt_cases h ht hi hq
  · exact .down hat hr
  · have := hlow (List.length_eq_zero_iff.mp (by omega))
    omega

/-- A table of a process above level 0 points to tables of that process only. -/
theorem child_of_slot (h : Inv p s g) (hat : At g r path t) (hlen : path.length + (k + 1) = 2) (hi : i < 512)
    (hlow : path = [] → 4 ≤ i) (h0 : s.mem t i ≠ 0#64) :
    ∃ q, s.mem t i = tablePte q ∧ g.role q = .tab k (some (t, i)) := by
  obtain ⟨k', up, ht, hk'⟩ := hat.level h.tabs
  obtain rfl : k' = k + 1 := by omega
  cases h.tabs.slot ht hi with
  | empty e => exact absurd e h0
  | child q e hq => exact ⟨q, e, hq⟩
  | kernel hk1 hi4 _ _ =>
    have := hlow (List.length_eq_zero_iff.mp (by omega))
    omega
  | mega hk0 hup _ =>
    cases hat with
    | root hr =>
      simp only [List.length_nil] at hlen
      omega
    | down _ hq =>
      rw [ht, hup] at hq
      cases hq

theorem at_of_leafTable (h : Inv p s g) (hr : g.role r = .tab 2 none) (h2 : i2 < 512) (h4 : 4 ≤ i2) (h1 : i1 < 512)
    (ht : leafTable s r i2 i1 = some t) : At g r [i1, i2] t := by
  rw [leafTable, Option.bind_eq_some_iff] at ht
  obtain ⟨q, hq, hqt⟩ := ht
  have hat := at_of_tableAt h (.root hr) h2 (by simp) (fun _ => h4) hq
  exact at_of_tableAt h hat h1 (by simp) (by simp) hqt

/-- What the root points to is a table of level 1. -/
theorem role_of_tableAt (h : Inv p s g) (hr : g.role r = .tab 2 none) (hi : i < 512)
    (hq : tableAt s r i = some q) : ∃ up, g.role q = .tab 1 up := by
  obtain ⟨-, hq' | ⟨-, -, hq'⟩⟩ := tableAt_cases h hr hi hq <;> exact ⟨_, hq'⟩

theorem role_of_leafTable (h : Inv p s g) (hr : g.role r = .tab 2 none) (h2 : i2 < 512) (h1 : i1 < 512)
    (ht : leafTable s r i2 i1 = some t) : ∃ up, g.role t = .tab 0 up := by
  rw [leafTable, Option.bind_eq_some_iff] at ht
  obtain ⟨q, hq, hqt⟩ := ht
  obtain ⟨up, hqr⟩ := role_of_tableAt h hr h2 hq
  obtain ⟨-, ht | ⟨e, -⟩⟩ := tableAt_cases h hqr h1 hqt
  · exact ⟨_, ht⟩
  · cases e

end Paths

/-! ## The leaf words of a space -/

/-- Three indices in range, the outermost outside the kernel's part. -/
inductive UserIx : List Nat → Prop where
  | mk {i0 i1 i2 : Nat} (h0 : i0 < 512) (h1 : i1 < 512) (h4 : 4 ≤ i2) (h2 : i2 < 512) :
      UserIx [i0, i1, i2]

theorem userIx_indices {va : Nat} (h : 4 ≤ vpn va 2) : UserIx (indices va) :=
  .mk (vpn_lt va 0) (vpn_lt va 1) h (vpn_lt va 2)

section Leaf
variable {s s' : Mm} {g g' : Ghost} {p p' : Policy} {r t i0 i1 i2 : Nat}

theorem leafAt_of_at (h : Inv p s g) (hat : At g r [i1, i2] t) : leafAt s r [i0, i1, i2] = s.mem t i0 := by
  simp only [leafAt, hat.leafTable h]

/-- A word that is not zero is found at a table of the space. -/
theorem at_of_leafAt (h : Inv p s g) (hr : g.role r = .tab 2 none) (h1 : i1 < 512) (h4 : 4 ≤ i2)
    (h2 : i2 < 512) (hne : leafAt s r [i0, i1, i2] ≠ 0#64) :
    ∃ t, At g r [i1, i2] t ∧ leafAt s r [i0, i1, i2] = s.mem t i0 := by
  cases hl : leafTable s r i2 i1 with
  | none => simp [leafAt, hl] at hne
  | some t => exact ⟨t, at_of_leafTable h hr h2 h4 h1 hl, by simp [leafAt, hl]⟩

/-- Two states give a page the same word if the tables that hold something are the same. -/
theorem leafAt_congr (h : Inv p s g) (h' : Inv p' s' g') (hr : g.role r = .tab 2 none)
    (hr' : g'.role r = .tab 2 none) (h1 : i1 < 512) (h4 : 4 ≤ i2) (h2 : i2 < 512)
    (hto : ∀ t, At g r [i1, i2] t → s.mem t i0 ≠ 0#64 → At g' r [i1, i2] t ∧ s'.mem t i0 = s.mem t i0)
    (hfrom : ∀ t, At g' r [i1, i2] t → s'.mem t i0 ≠ 0#64 → At g r [i1, i2] t ∧ s'.mem t i0 = s.mem t i0) :
    leafAt s' r [i0, i1, i2] = leafAt s r [i0, i1, i2] := by
  by_cases hne : leafAt s r [i0, i1, i2] = 0#64
  · by_contra hd
    have hne' : leafAt s' r [i0, i1, i2] ≠ 0#64 := fun e => hd (e.trans hne.symm)
    obtain ⟨t, hat, e⟩ := at_of_leafAt h' hr' h1 h4 h2 hne'
    obtain ⟨hat', em⟩ := hfrom t hat (e ▸ hne')
    rw [leafAt_of_at h hat'] at hne
    exact hne' (e.trans (em.trans hne))
  · obtain ⟨t, hat, e⟩ := at_of_leafAt h hr h1 h4 h2 hne
    obtain ⟨hat', em⟩ := hto t hat (e ▸ hne)
    rw [leafAt_of_at h' hat', em, e]

theorem At.map (hrole : ∀ t k up, g.role t = .tab k up → g'.role t = .tab k up) :
    ∀ {path t}, At g r path t → At g' r path t
  | _, _, .root hr => .root (hrole _ _ _ hr)
  | _, _, .down hat hq => .down (hat.map hrole) (hrole _ _ _ hq)

/-- A frame that a space maps is mapped by some leaf. -/
theorem leafRefs_pos_of_leafAt (h : Inv p s g) (hr : g.role r = .tab 2 none) {l : List Nat}
    (hl : UserIx l) (hv : has (leafAt s r l) pteV = true) (hu : has (leafAt s r l) pteU = true) :
    0 < leafRefs s g (ptePa (leafAt s r l)) := by
  obtain ⟨h0, h1, h4, h2⟩ := hl
  obtain ⟨t, hat, e⟩ := at_of_leafAt h hr h1 h4 h2 (ne_zero_of_has hv)
  obtain ⟨up, ht⟩ := hat.leaf_role h.tabs
  rw [e] at hv hu ⊢
  exact (leafRefs_pos h.pool).mpr ⟨t, up, _, ht, h0, leafTo_iff.mpr ⟨hv, hu, rfl⟩⟩

end Leaf

/-! ## Steps that keep address spaces -/

/-- Every space of `R` gives the same words for the same pages, and the pages hold the same data. -/
structure Keeps (R : Nat → Prop) (s : Mm) (g : Ghost) (s' : Mm) (g' : Ghost) : Prop where
  root : ∀ {r}, R r → g.role r = .tab 2 none → g'.role r = .tab 2 none
  leaf : ∀ {r l}, R r → g.role r = .tab 2 none → UserIx l → leafAt s' r l = leafAt s r l
  data : ∀ {r l}, R r → g.role r = .tab 2 none → UserIx l → has (leafAt s r l) pteV = true →
    has (leafAt s r l) pteU = true → s'.mem (ptePa (leafAt s r l)) = s.mem (ptePa (leafAt s r l))

section Keeps
variable {R : Nat → Prop} {s s' s'' : Mm} {g g' g'' : Ghost} {p : Policy}

theorem Keeps.refl : Keeps R s g s g := ⟨fun _ h => h, fun _ _ _ => rfl, fun _ _ _ _ _ => rfl⟩

theorem Keeps.trans (h : Keeps R s g s' g') (h' : Keeps R s' g' s'' g'') : Keeps R s g s'' g'' where
  root hR hr := h'.root hR (h.root hR hr)
  leaf hR hr hl := (h'.leaf hR (h.root hR hr) hl).trans (h.leaf hR hr hl)
  data := by
    intro r l hR hr hl hv hu
    have he := h.leaf hR hr hl
    rw [← h.data hR hr hl hv hu, ← he]
    exact h'.data hR (h.root hR hr) hl (he ▸ hv) (he ▸ hu)

/-- The general rule: the tables of the spaces that hold something are the same tables. -/
theorem Keeps.of_tables (h : Inv p s g) (h' : Inv p s' g')
    (hroot : ∀ r, R r → g.role r = .tab 2 none → g'.role r = .tab 2 none)
    (hto : ∀ r path t, R r → At g r path t → (∃ j < 512, s.mem t j ≠ 0#64) → At g' r path t)
    (hfrom : ∀ r path t, R r → At g' r path t → (∃ j < 512, s'.mem t j ≠ 0#64) → At g r path t)
    (hmem : ∀ r path t, R r → At g r path t → At g' r path t → path.length = 2 → s'.mem t = s.mem t)
    (hdata : ∀ f', 0 < leafRefs s g f' → s'.mem f' = s.mem f') : Keeps R s g s' g' where
  root hR hr := hroot _ hR hr
  leaf := by
    intro r l hR hr hl
    obtain ⟨h0, h1, h4, h2⟩ := hl
    refine leafAt_congr h h' hr (hroot r hR hr) h1 h4 h2 (fun t hat hne => ?_) (fun t hat hne => ?_)
    · have hat' := hto r _ t hR hat ⟨_, h0, hne⟩
      exact ⟨hat', by rw [hmem r _ t hR hat hat' rfl]⟩
    · have hat' := hfrom r _ t hR hat ⟨_, h0, hne⟩
      exact ⟨hat', by rw [hmem r _ t hR hat' hat rfl]⟩
  data hR hr hl hv hu := hdata _ (leafRefs_pos_of_leafAt h hr hl hv hu)

theorem Keeps.of_same (h : Inv p s g) (h' : Inv p s' g') (e : SameTables s s' g g')
    (hdata : ∀ f', 0 < leafRefs s g f' → s'.mem f' = s.mem f') : Keeps R s g s' g' := by
  have hto : ∀ {r path t}, At g r path t → At g' r path t := fun hat =>
    hat.map fun t k up ht => (e.role t k up).mpr ht
  have hfrom : ∀ {r path t}, At g' r path t → At g r path t := fun hat =>
    hat.map fun t k up ht => (e.role t k up).mp ht
  refine .of_tables h h' (fun r _ hr => (e.role _ _ _).mpr hr) (fun _ _ _ _ hat _ => hto hat)
    (fun _ _ _ _ hat _ => hfrom hat) (fun r path t _ hat _ _ => ?_) hdata
  obtain ⟨k, up, ht, -⟩ := hat.level h.tabs
  exact e.mem t k up ht

end Keeps
end OpenV
