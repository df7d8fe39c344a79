import OpenV.Mm.Space

/- What the steps of the layout invariant do to address spaces. All but the
   writing of a leaf slot keep every space they do not create or free. -/
namespace OpenV

open Ghost

section
variable {R : Nat → Prop} {s : Mm} {g : Ghost} {p : Policy} {f t i r : Nat}
variable {k i1 i2 : Nat} {up : Option (Nat × Nat)}

/-- Tables are not mapped. -/
theorem ne_of_leafRefs_pos (h : Inv p s g) (ht : g.role t = .tab k up) (hpos : 0 < leafRefs s g f) : f ≠ t := by
  rintro rfl
  rw [leafRefs_eq_zero h.pool h.leaves (by simp [ht]) (by simp [ht])] at hpos
  exact Nat.lt_irrefl 0 hpos

theorem Keeps.alloc (h : Inv p s g) (h0 : s.head ≠ 0) : Keeps R s g s.allocated (g.alloc s.head) := by
  refine .of_same h (h.alloc h0) (SameTables.alloc h.pool h0) fun f' hpos => ?_
  obtain ⟨-, -, hrole⟩ := h.pool.head_free h0
  refine Mm.setFrame_mem_of_ne ?_
  rintro rfl
  rw [leafRefs_eq_zero h.pool h.leaves (by simp [hrole]) (by simp [hrole])] at hpos
  exact Nat.lt_irrefl 0 hpos

theorem Keeps.write (h : Inv p s g) (hr : g.role f = .page) (h0 : leafRefs s g f = 0) (c : Nat → Word) :
    Keeps R s g (s.setFrame f c) g := by
  refine .of_same h (h.write hr c) (SameTables.write hr c) fun f' hpos => Mm.setFrame_mem_of_ne ?_
  rintro rfl
  omega

theorem Keeps.drop (h : Inv p s g) (hr : g.role f = .page) (he : 0 < g.ext f)
    (hle : g.ext f + leafRefs s g f ≤ 65535) : Keeps R s g (decrRefAndMaybeFree f s) (g.drop s f) := by
  have hok : FrameOk s f := h.pool.ok (by simp [hr])
  refine .of_same h (h.drop hr he hle) (SameTables.drop hok hr) fun f' hpos => ?_
  rw [decrRef_eq hok]
  split
  · rfl
  · -- the page is freed, so nothing maps it
    refine Mm.setFrame_mem_of_ne ?_
    rintro rfl
    have := (h.count.page hr).1
    omega

theorem Keeps.link (h : Inv p s g) (ht : g.role t = .tab (k + 1) up) (hi : i < 512) (h0 : s.mem t i = 0#64)
    (hk : ¬p.kern t) (hlow : k = 1 → 4 ≤ i ∨ ¬p.strict) (hf : Fresh s g f) (hz : ∀ j < 512, s.mem f j = 0#64) :
    Keeps R s g (s.setEntry t i (tablePte f)) (g.toTable f k (some (t, i))) := by
  have h' := h.link ht hi h0 hk hlow hf hz
  have hto : ∀ {r path q}, At g r path q → At (g.toTable f k (some (t, i))) r path q := fun hat =>
    hat.map fun _ _ _ hq => toTable_old hf.role hq
  have hmf : (s.setEntry t i (tablePte f)).mem f = s.mem f :=
    Mm.setEntry_mem_of_ne (ne_of_role hf.role ht)
  -- a table of the new state is an old one or the new, empty one
  have hfrom : ∀ {r path q}, At (g.toTable f k (some (t, i))) r path q → q = f ∨ At g r path q := by
    intro r path q hat
    induction hat with
    | root hr =>
      rcases toTable_new hr with ⟨-, -, e⟩ | hr'
      · cases e
      · exact .inr (.root hr')
    | @down path q' k' j q hat hq ih =>
      rcases toTable_new hq with ⟨rfl, -, -⟩ | hq'
      · exact .inl rfl
      · rcases ih with rfl | ih
        · obtain ⟨⟨up', hup⟩, -⟩ := h.tabs.up hq'
          rw [hf.role] at hup
          exact Role.noConfusion hup
        · exact .inr (.down ih hq')
  refine .of_tables h h' (fun r _ hr => toTable_old hf.role hr) (fun _ _ _ _ hat _ => hto hat)
    (fun r path q _ hat hne => ?_) (fun r path q _ hat _ hlen => ?_) (fun f' hpos => ?_)
  · rcases hfrom hat with rfl | hat'
    · obtain ⟨j, hj, hne⟩ := hne
      rw [hmf, hz j hj] at hne
      exact absurd rfl hne
    · exact hat'
  · obtain ⟨k', up', hq, hk'⟩ := hat.level h.tabs
    exact Mm.setEntry_mem_of_ne (ne_of_role hq ht (by intro e; cases e; omega))
  · exact Mm.setEntry_mem_of_ne (ne_of_leafRefs_pos h ht hpos)

theorem Keeps.newRoot (hf : Fresh s g f) : Keeps R s g s (g.toTable f 2 none) :=
  ⟨fun _ hr => toTable_old hf.role hr, fun _ _ _ => rfl, fun _ _ _ _ _ => rfl⟩

theorem Keeps.unlink (h : Inv p s g) {q : Nat} (hq : g.role q = .tab k (some (t, i))) (hkq : ¬p.kern q)
    (hkt : ¬p.kern t) (hz : ∀ j < 512, s.mem q j = 0#64) :
    Keeps R s g ((s.pageFreed q).setEntry t i 0#64) (g.freeTable q) := by
  have h' := h.unlink hq hkq hkt hz
  obtain ⟨⟨upt, ht⟩, hi, hmt, -⟩ := h.tabs.up hq
  have hfrom : ∀ {r path x}, At (g.freeTable q) r path x → At g r path x := fun hat =>
    hat.map fun _ _ _ hx => (freeTable_tab.mp hx).2
  -- nothing hangs in the table that goes
  have hto : ∀ {r path x}, At g r path x → x ≠ q → At (g.freeTable q) r path x := by
    intro r path x hat
    induction hat with
    | root hr => exact fun hne => .root (freeTable_tab.mpr ⟨hne, hr⟩)
    | @down path y k' j x _ hx ih =>
      intro hne
      refine .down (ih ?_) (freeTable_tab.mpr ⟨hne, hx⟩)
      rintro rfl
      obtain ⟨-, hj, hm, -⟩ := h.tabs.up hx
      rw [hz j hj] at hm
      exact tablePte_ne_zero _ hm.symm
  refine .of_tables h h' (fun r _ hr => ?_) (fun r path x _ hat hne => hto hat ?_)
    (fun _ _ _ _ hat _ => hfrom hat) (fun r path x _ hat hat' hlen => ?_) (fun f' hpos => ?_)
  · refine freeTable_tab.mpr ⟨?_, hr⟩
    rintro rfl
    rw [hr] at hq
    cases hq
  · rintro rfl
    obtain ⟨j, hj, hne⟩ := hne
    exact hne (hz j hj)
  · obtain ⟨k', up', hx, hk'⟩ := hat.level h.tabs
    obtain ⟨k'', up'', hx', -⟩ := hat'.level h'.tabs
    have hxt : x ≠ t := ne_of_role hx ht (by intro e; cases e; omega)
    rw [Mm.setEntry_mem_of_ne hxt, s.pageFreed_mem_of_ne (freeTable_tab.mp hx').1]
  · rw [Mm.setEntry_mem_of_ne (ne_of_leafRefs_pos h ht hpos), s.pageFreed_mem_of_ne (ne_of_leafRefs_pos h hq hpos)]

theorem Keeps.freeRoot (h : Inv p s g) (hr : g.role r = .tab 2 none) (hz : ∀ j, 4 ≤ j → j < 512 → s.mem r j = 0#64) :
    Keeps (· ≠ r) s g (s.pageFreed r) (g.freeRoot r) := by
  have h' := h.freeRoot hr hz
  have hroot : ∀ r', r' ≠ r → g.role r' = .tab 2 none → (g.freeRoot r).role r' = .tab 2 none := by
    intro r' hne hr'
    rw [freeRoot_role_of_ne hne, hr', Role.orphan_of_ne (by simp)]
  have hfrom : ∀ {r' path x}, At (g.freeRoot r) r' path x → At g r' path x := by
    intro r' path x hat
    induction hat with
    | root hx =>
      obtain ⟨-, hx' | ⟨-, e, -⟩⟩ := freeRoot_tab hx
      · exact .root hx'
      · cases e
    | down _ hx ih =>
      obtain ⟨-, hx' | ⟨-, -, e⟩⟩ := freeRoot_tab hx
      · exact .down ih hx'
      · cases e
  have hto : ∀ {r' path x}, r' ≠ r → At g r' path x → At (g.freeRoot r) r' path x ∧ x ≠ r := by
    intro r' path x hne hat
    induction hat with
    | root hx => exact ⟨.root (hroot _ hne hx), hne⟩
    | @down path y k j x _ hx ih =>
      obtain ⟨ih, hyr⟩ := ih
      have hxr : x ≠ r := by
        rintro rfl
        rw [hr] at hx
        cases hx
      refine ⟨.down ih (k := k) ?_, hxr⟩
      rw [freeRoot_role_of_ne hxr, hx, Role.orphan_of_ne]
      intro i e
      cases e
      exact hyr rfl
  refine .of_tables h h' hroot (fun r' path x hne hat _ => (hto hne hat).1)
    (fun _ _ _ _ hat _ => hfrom hat) (fun r' path x hne hat _ _ => ?_) (fun f' hpos => ?_)
  · exact s.pageFreed_mem_of_ne (hto hne hat).2
  · exact s.pageFreed_mem_of_ne (ne_of_leafRefs_pos h hr hpos)

/-! ## Writing a leaf slot -/

section
variable {up : Option (Nat × Nat)} (h : Inv p s g) (ht : g.role t = .tab 0 up) (hr : g.role r = .tab 2 none)
include h ht hr

theorem leafTable_setLeaf {i1 i2 : Nat} (h2 : i2 < 512) (w : Word) :
    leafTable (s.setEntry t i w) r i2 i1 = leafTable s r i2 i1 := by
  have hroot : tableAt (s.setEntry t i w) r i2 = tableAt s r i2 := by
    rw [tableAt, Mm.setEntry_mem_of_ne (ne_of_role hr ht), tableAt]
  rw [leafTable, leafTable, hroot]
  cases hq : tableAt s r i2 with
  | none => rfl
  | some q =>
    obtain ⟨up', hqr⟩ := role_of_tableAt h hr h2 hq
    simp only [Option.bind_some]
    rw [tableAt, Mm.setEntry_mem_of_ne (ne_of_role hqr ht), tableAt]

/-- A write to a slot that is not the one of the page leaves the page's word. -/
theorem leafAt_setLeaf_of_not_at {j0 j1 j2 : Nat} (h1 : j1 < 512) (h4 : 4 ≤ j2) (h2 : j2 < 512)
    (hne : ¬(At g r [j1, j2] t ∧ j0 = i)) (w : Word) :
    leafAt (s.setEntry t i w) r [j0, j1, j2] = leafAt s r [j0, j1, j2] := by
  simp only [leafAt, leafTable_setLeaf h ht hr h2]
  cases hlt : leafTable s r j2 j1 with
  | none => rfl
  | some t' =>
    have hat := at_of_leafTable h hr h2 h4 h1 hlt
    refine (s.setEntry_mem_cases t i w t' j0).resolve_left ?_
    rintro ⟨e1, e2, -⟩
    subst e1
    exact hne ⟨hat, e2⟩

end

/-- A write to a slot of `r`'s table at `i1`, `i2` changes `r` at one page and no other space. -/
theorem leafAt_setLeaf (h : Inv p s g) (hat : At g r [i1, i2] t) {r' : Nat} (hr' : g.role r' = .tab 2 none)
    {l : List Nat} (hl : UserIx l) (w : Word) :
    leafAt (s.setEntry t i w) r' l = if r' = r ∧ l = [i, i1, i2] then w else leafAt s r' l := by
  obtain ⟨up, ht⟩ := hat.leaf_role h.tabs
  obtain ⟨h0, h1, h4, h2⟩ := hl
  rename_i j0 j1 j2
  by_cases e : r' = r ∧ [j0, j1, j2] = [i, i1, i2]
  · obtain ⟨rfl, e⟩ := e
    cases e
    simp only [leafAt, leafTable_setLeaf h ht hr' h2, hat.leafTable h]
    exact s.setEntry_mem_self _ _ _
  · rw [if_neg e]
    refine leafAt_setLeaf_of_not_at h ht hr' h1 h4 h2 (fun hx => e ?_) w
    obtain ⟨hat', rfl⟩ := hx
    obtain ⟨rfl, e3⟩ := hat'.unique hat
    cases e3
    exact ⟨rfl, rfl⟩

theorem Keeps.setLeaf (h : Inv p s g) (ht : g.role t = .tab 0 up)
    (hR : ∀ r, R r → ∀ j1 j2, 4 ≤ j2 → ¬At g r [j1, j2] t) (w : Word) (ext' : Nat → Nat) :
    Keeps R s g (s.setEntry t i w) { g with ext := ext' } where
  root _ hr := hr
  leaf := by
    intro r' l hr hr' hl
    obtain ⟨h0, h1, h4, h2⟩ := hl
    exact leafAt_setLeaf_of_not_at h ht hr' h1 h4 h2 (fun hx => hR r' hr _ _ h4 hx.1) w
  data := by
    intro r' l _ hr' hl hv hu
    exact Mm.setEntry_mem_of_ne (ne_of_leafRefs_pos h ht (leafRefs_pos_of_leafAt h hr' hl hv hu))

/-- What one space finds, or anything finds through the kernel's part, no other space finds in
its user part. -/
theorem not_at_of_leafTable (h : Inv p s g) {root : Nat} (hroot : g.role root = .tab 2 none) (h2 : i2 < 512)
    (h1 : i1 < 512) (ht : leafTable s root i2 i1 = some t) (hne : r ≠ root ∨ i2 < 4) {j1 j2 : Nat} (h4 : 4 ≤ j2) :
    ¬At g r [j1, j2] t := by
  intro hat
  rw [leafTable, Option.bind_eq_some_iff] at ht
  obtain ⟨q, hq, hqt⟩ := ht
  have hqr : ∃ up, g.role q = .tab 1 up ∧ (up = some (root, i2) ∨ up = none) := by
    obtain ⟨-, hq' | ⟨-, -, hq'⟩⟩ := tableAt_cases h hroot h2 hq
    · exact ⟨_, hq', .inl rfl⟩
    · exact ⟨_, hq', .inr rfl⟩
  obtain ⟨up, hqr, hup⟩ := hqr
  have htr : g.role t = .tab 0 (some (q, i1)) := by
    obtain ⟨-, ht' | ⟨e, -⟩⟩ := tableAt_cases h hqr h1 hqt
    · exact ht'
    · cases e
  cases hat with
  | down hat htr' =>
    rw [htr] at htr'
    cases htr'
    cases hat with
    | down hat hqr' =>
      rw [hqr] at hqr'
      cases hqr'
      cases hat
      rcases hup with e | e
      · cases e
        rcases hne with hne | hlt
        · exact hne rfl
        · omega
      · cases e

end
end OpenV
