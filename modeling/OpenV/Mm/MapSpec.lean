import OpenV.Mm.SpaceSteps

/- What allocation, new page tables and `map_page` do, as weakest preconditions
   over the layout invariant. -/
namespace OpenV

open Cmd Function Mm

section Alloc
variable {s : Mm} {g : Ghost} {p : Policy}

theorem allocFrame_eq (h : PoolOk s g) :
    allocFrame s = if s.head = 0 then (.ok none, s) else (.ok (some s.head), s.allocated) := by
  by_cases h0 : s.head = 0
  · simp [allocFrame, Bind.bind, Cmd.bind, Cmd.get, h0, pure]
  · obtain ⟨rest, hfree, hrole⟩ := h.head_free h0
    have hp : byteOf (s.mem s.head 1) 0 = poisonByte :=
      h.poison _ (by rw [hfree]; exact .head _)
    have hidx : s.pageIndex s.head < maxPages := (h.ok (by simp [hrole])).index_lt
    simp [allocFrame, Bind.bind, Cmd.bind, Cmd.get, Cmd.modify, h0, hp, hidx, pure, allocated, setFrame, setCount]

theorem wp_allocOr (h : PoolOk s g) (e : String) {Q : Nat → Mm → Prop} {E X : Mm → Prop} :
    (allocOr e).wp Q E X s ↔ (s.head = 0 → E s) ∧ (s.head ≠ 0 → Q s.head s.allocated) := by
  unfold allocOr
  rw [wp_bind, wp_of_eq (allocFrame_eq h)]
  by_cases h0 : s.head = 0
  · simp [h0, Cmd.Ends]
  · simp [h0, Cmd.Ends]

/-- What the allocator hands out. -/
theorem Inv.fresh_allocated (h : Inv p s g) (h0 : s.head ≠ 0) :
    Fresh s.allocated (g.alloc s.head) s.head ∧ ∀ j, s.allocated.mem s.head j = 0#64 := by
  obtain ⟨-, -, hrole⟩ := h.pool.head_free h0
  refine ⟨⟨update_self .., update_self .., ?_⟩, fun j => ?_⟩
  · rw [leafRefs_frame (SameTables.alloc h.pool h0)]
    exact leafRefs_eq_zero h.pool h.leaves (by simp [hrole]) (by simp [hrole])
  · exact congrFun (setFrame_mem_self s s.head _) j

end Alloc

/-! ## Steps that only add tables -/

/-- The same address spaces exist. -/
def SameRoots (g g' : Ghost) : Prop := ∀ r, g'.role r = .tab 2 none ↔ g.role r = .tab 2 none

theorem SameRoots.refl {g : Ghost} : SameRoots g g := fun _ => Iff.rfl

theorem SameRoots.trans {g g' g'' : Ghost} (h : SameRoots g g') (h' : SameRoots g' g'') : SameRoots g g'' :=
  fun r => (h' r).trans (h r)

/-- Pages, their holders and the address spaces are as before; tables may have been added. -/
structure Grows (s : Mm) (g : Ghost) (s' : Mm) (g' : Ghost) : Prop where
  ram : s'.ramStart = s.ramStart
  kernelRoot : s'.kernelRoot = s.kernelRoot
  pool : g'.pool = g.pool
  page : ∀ {f}, g.role f = .page → g'.role f = .page ∧ g'.ext f = g.ext f ∧ s'.mem f = s.mem f
  page_old : ∀ {f}, g'.role f = .page → g.role f = .page
  tab : ∀ {t k up}, g.role t = .tab k up → g'.role t = .tab k up
  down : ∀ {t k up i q}, g.role t = .tab k up → tableAt s t i = some q → tableAt s' t i = some q
  refs : ∀ f, leafRefs s' g' f = leafRefs s g f
  keeps : ∀ {R}, Keeps R s g s' g'
  free : g'.free.length ≤ g.free.length

section Grows
variable {s s' s'' : Mm} {g g' g'' : Ghost} {p : Policy} {t k i : Nat} {up : Option (Nat × Nat)}

theorem Grows.refl : Grows s g s g :=
  ⟨rfl, rfl, rfl, fun h => ⟨h, rfl, rfl⟩, fun h => h, fun h => h, fun _ h => h, fun _ => rfl, .refl, Nat.le_refl _⟩

theorem Grows.trans (h : Grows s g s' g') (h' : Grows s' g' s'' g'') : Grows s g s'' g'' where
  ram := h'.ram.trans h.ram
  kernelRoot := h'.kernelRoot.trans h.kernelRoot
  pool := h'.pool.trans h.pool
  page hf := by
    obtain ⟨h1, h2, h3⟩ := h.page hf
    obtain ⟨h1', h2', h3'⟩ := h'.page h1
    exact ⟨h1', h2'.trans h2, h3'.trans h3⟩
  page_old hf := h.page_old (h'.page_old hf)
  tab ht := h'.tab (h.tab ht)
  down ht hq := h'.down (h.tab ht) (h.down ht hq)
  refs f := (h'.refs f).trans (h.refs f)
  keeps := h.keeps.trans h'.keeps
  free := Nat.le_trans h'.free h.free

theorem Grows.at (h : Grows s g s' g') {r : Nat} {path : List Nat} (hat : At g r path t) : At g' r path t :=
  hat.map fun _ _ _ => h.tab

/-- A new table is allocated and hung into an empty slot. -/
theorem Inv.grow (h : Inv p s g) (h0 : s.head ≠ 0) (ht : g.role t = .tab (k + 1) up) (hi : i < 512)
    (he : s.mem t i = 0#64) (hk : ¬p.kern t) (hlow : k = 1 → 4 ≤ i ∨ ¬p.strict) :
    let s' := s.allocated.setEntry t i (tablePte s.head)
    let g' := (g.alloc s.head).toTable s.head k (some (t, i))
    Inv p s' g' ∧ Grows s g s' g' ∧ g.free.length = g'.free.length + 1 ∧
      (∀ j < 512, s'.mem s.head j = 0#64) ∧ SameRoots g g' := by
  obtain ⟨rest, hfree, hrole⟩ := h.pool.head_free h0
  have hsame := SameTables.alloc h.pool h0
  have ha := h.alloc h0
  obtain ⟨hfresh, hz⟩ := h.fresh_allocated h0
  have ht' := (hsame.role _ _ _).mpr ht
  have he' : s.allocated.mem t i = 0#64 := by rw [hsame.mem _ _ _ ht, he]
  have hth : t ≠ s.head := ne_of_role ht hrole
  have hlen : g.free.length = ((g.alloc s.head).toTable s.head k (some (t, i))).free.length + 1 := by
    simp [Ghost.toTable, Ghost.alloc, hfree]
  have hlink := ha.link ht' hi he' hk hlow hfresh (fun j _ => hz j)
  refine ⟨hlink, ⟨rfl, rfl, rfl, fun {f} hf => ?_, fun {f} hf => ?_, fun {t' k' up'} hr => ?_,
    fun {t' k' up' j q} hr hq => ?_, fun f => ?_, ?_, by omega⟩, hlen, fun j _ => ?_, fun r => ⟨fun hr => ?_, fun hr => ?_⟩⟩
  · have hne : f ≠ s.head := ne_of_role hf hrole
    have hne' : f ≠ t := ne_of_role hf ht
    refine ⟨?_, ?_, ?_⟩
    · simp only [Ghost.toTable, Ghost.alloc, update_of_ne hne, hf]
    · simp only [Ghost.toTable, Ghost.alloc, update_of_ne hne]
    · rw [Mm.setEntry_mem_of_ne hne']
      exact Mm.setFrame_mem_of_ne hne
  · by_cases e : f = s.head
    · subst e
      simp [Ghost.toTable] at hf
    · simpa only [Ghost.toTable, Ghost.alloc, update_of_ne e] using hf
  · exact Ghost.toTable_old hfresh.role ((hsame.role _ _ _).mpr hr)
  · rcases s.allocated.setEntry_mem_cases t i (tablePte s.head) t' j with ⟨rfl, rfl, -⟩ | e
    · rw [tableAt_zero he] at hq
      cases hq
    · rw [tableAt, e, hsame.mem _ _ _ hr]
      exact hq
  · have hsl : SameLeaves s.allocated (s.allocated.setEntry t i (tablePte s.head)) (g.alloc s.head)
        s.head k := by
      refine ⟨rfl, rfl, rfl, fun f' hf' => ?_, fun t' up' hr => ?_, fun _ j _ => ?_⟩
      · exact Mm.setEntry_mem_of_ne (ne_of_role hf' ht')
      · exact Mm.setEntry_mem_of_ne (ne_of_role hr ht')
      · rw [Mm.setEntry_mem_of_ne hth.symm]
        exact hz j
    rw [leafRefs_toTable hfresh.role hsl, leafRefs_frame hsame]
  · exact (Keeps.alloc h h0).trans (Keeps.link ha ht' hi he' hk hlow hfresh (fun j _ => hz j))
  · rw [Mm.setEntry_mem_of_ne hth.symm]
    exact hz j
  · rcases Ghost.toTable_new hr with ⟨-, -, e⟩ | hr
    · cases e
    · exact (hsame.role _ _ _).mp hr
  · exact Ghost.toTable_old hfresh.role ((hsame.role _ _ _).mpr hr)

end Grows

/-! ## New roots -/

section NewRoot
variable {s : Mm} {g : Ghost} {p : Policy}

theorem Mm.setEntry_setFrame (s : Mm) (f i : Nat) (c : Nat → Word) (w : Word) :
    (s.setFrame f c).setEntry f i w = s.setFrame f (fun j => if j = i then w else c j) := by
  simp only [setEntry, setFrame, mk.injEq, true_and]
  funext q j
  by_cases hq : q = f <;> simp [hq]

/-- A new root is a frame that was free; the rest of the memory is as it was. -/
theorem newProcessTable_wp (h : Inv p s g) : newProcessTable.wp
      (fun root s' => ∃ g', Inv p s' g' ∧ Grows s g s' g' ∧ g'.role root = .tab 2 none ∧
        g.role root = .free ∧ (∀ j, 4 ≤ j → j < 512 → s'.mem root j = 0#64) ∧
        ∀ r, g'.role r = .tab 2 none ↔ g.role r = .tab 2 none ∨ r = root)
      (fun s' => s' = s ∧ s.head = 0) (fun _ => False) s := by
  simp only [newProcessTable, wp_bind, wp_allocOr h.pool, wp_pure]
  refine ⟨fun h0 => ⟨trivial, h0⟩, fun h0 => ?_⟩
  obtain ⟨rest, hfree, hrole⟩ := h.pool.head_free h0
  obtain ⟨hfresh, hz⟩ := h.fresh_allocated h0
  have hsame := SameTables.alloc h.pool h0
  refine wp_forEach
    (fun done s' => s' = s.allocated.setFrame s.head fun j => if j ∈ done then s.kernelRoot j else 0#64)
    ?_ ?_ ?_
  · have : (fun j => if j ∈ ([] : List Nat) then s.kernelRoot j else 0#64) = fun _ => 0#64 := by
      funext j
      simp
    simp only [Mm.allocated, Mm.setFrame, Mm.mk.injEq, true_and]
    funext q
    by_cases hq : q = s.head <;> simp [hq]
  · intro pre x post s' _ hs
    subst hs
    simp only [wp_modify, Mm.setEntry_setFrame]
    congr 1
    funext j
    by_cases hx : j = x
    · subst hx
      simp [Mm.setFrame, Mm.allocated]
    · simp [hx]
  · intro s' hs
    subst hs
    generalize hc : (fun j => if j ∈ List.range 4 then s.kernelRoot j else 0#64) = c
    have ha := h.alloc h0
    have hw := ha.write hfresh.role c
    have hfresh' : Fresh (s.allocated.setFrame s.head c) (g.alloc s.head) s.head :=
      ⟨hfresh.role, hfresh.ext, by rw [leafRefs_frame (SameTables.write hfresh.role c), hfresh.refs]⟩
    have hmem : (s.allocated.setFrame s.head c).mem s.head = c := Mm.setFrame_mem_self ..
    have hlow : ∀ j < 4, c j = s.kernelRoot j := fun j hj => by
      rw [← hc]
      simp [hj]
    have hhigh : ∀ j, 4 ≤ j → j < 512 → c j = 0#64 := fun j hj _ => by
      rw [← hc]
      simp only [List.mem_range]
      rw [if_neg (by omega)]
    have hnew := hw.newRoot hfresh' (fun j hj => by rw [hmem]; exact hlow j hj)
      (fun j h4 hj => by rw [hmem]; exact hhigh j h4 hj)
    refine ⟨_, hnew, ⟨rfl, rfl, rfl, fun {f} hf => ?_, fun {f} hf => ?_, fun {t k up} ht => ?_, fun {t k up i q} ht hq => ?_,
      fun f => ?_, ?_, ?_⟩, update_self .., hrole, fun j h4 hj => by rw [hmem]; exact hhigh j h4 hj,
      fun r => ⟨fun hr => ?_, fun hr => ?_⟩⟩
    · have hne : f ≠ s.head := ne_of_role hf hrole
      refine ⟨?_, ?_, ?_⟩
      · simp only [Ghost.toTable, Ghost.alloc, update_of_ne hne, hf]
      · simp only [Ghost.toTable, Ghost.alloc, update_of_ne hne]
      · rw [Mm.setFrame_mem_of_ne hne]
        exact Mm.setFrame_mem_of_ne hne
    · by_cases e : f = s.head
      · subst e
        simp [Ghost.toTable] at hf
      · simpa only [Ghost.toTable, Ghost.alloc, update_of_ne e] using hf
    · exact Ghost.toTable_old hfresh.role ((hsame.role _ _ _).mpr ht)
    · rw [tableAt, Mm.setFrame_mem_of_ne (ne_of_role ht hrole), hsame.mem _ _ _ ht]
      exact hq
    · have hsl : SameLeaves (s.allocated.setFrame s.head c) (s.allocated.setFrame s.head c)
          (g.alloc s.head) s.head 2 :=
        ⟨rfl, rfl, rfl, fun _ _ => rfl, fun _ _ _ => rfl, fun e => absurd e (by decide)⟩
      rw [leafRefs_toTable hfresh.role hsl, leafRefs_frame (SameTables.write hfresh.role c), leafRefs_frame hsame]
    · exact ((Keeps.alloc h h0).trans (Keeps.write ha hfresh.role hfresh.refs c)).trans
        (Keeps.newRoot hfresh')
    · simp [Ghost.toTable, Ghost.alloc]
    · rcases Ghost.toTable_new hr with ⟨e, -, -⟩ | hr
      · exact .inr e
      · exact .inl ((hsame.role _ _ _).mp hr)
    · rcases hr with hr | rfl
      · exact Ghost.toTable_old hfresh.role ((hsame.role _ _ _).mpr hr)
      · exact update_self ..

end NewRoot

/-! ## `map_page` -/

section MapPage
variable {s : Mm} {g : Ghost} {p : Policy} {root va pa k pt : Nat} {up : Option (Nat × Nat)}

/-- One level down: the table is there, or it is made, or no frame is left, or a megapage is
in the way. -/
theorem mapPageStep_wp (h : Inv p s g) (ht : g.role pt = .tab (k + 1) up) (hk : ¬p.kern pt)
    (hlow : k = 1 → 4 ≤ vpn va (k + 1) ∨ ¬p.strict) : (mapPageStep pt va (k + 1)).wp
      (fun q s' => ∃ g', Inv p s' g' ∧ Grows s g s' g' ∧ SameRoots g g' ∧
        g.free.length ≤ g'.free.length + 1 ∧ tableAt s' pt (vpn va (k + 1)) = some q)
      (fun s' => s' = s ∧ (s.head = 0 ∨ up = none ∧ Mega (s.mem pt (vpn va (k + 1))))) (fun _ => False) s := by
  have hi := vpn_lt va (k + 1)
  generalize hidx : vpn va (k + 1) = i at *
  simp only [mapPageStep, hidx, wp_bind, wp_get, wp_ite, wp_allocOr h.pool, wp_modify, wp_pure, wp_fail]
  refine ⟨fun hv => ⟨fun h0 => ⟨trivial, .inl h0⟩, fun h0 => ?_⟩, fun hv => ?_⟩
  · have he := (h.tabs.slot ht hi).eq_zero h.tabs hv
    obtain ⟨hinv, hg, hlen, -, hroots⟩ := h.grow h0 ht hi he hk hlow
    obtain ⟨-, -, hrole⟩ := h.pool.head_free h0
    have hok : FrameOk s s.head := h.pool.ok (by simp [hrole])
    rw [setEntry_mem_self, ptePa_tablePte_of hok, tablePte_rwx]
    refine ⟨Bool.noConfusion, fun _ => ⟨_, hinv, hg, hroots, by omega, ?_⟩⟩
    exact tableAt_of_eq (setEntry_mem_self ..) (hok.of_ram rfl)
  · cases h.tabs.slot ht hi with
    | empty h0 =>
      rw [h0] at hv
      exact absurd rfl hv
    | child q hm hq =>
      have hok : FrameOk s q := h.pool.ok (by simp [hq])
      rw [hm, tablePte_rwx, ptePa_tablePte_of hok]
      exact ⟨Bool.noConfusion, fun _ => ⟨g, h, .refl, .refl, by omega, tableAt_of_eq hm hok⟩⟩
    | kernel hk1 hi4 hne hm =>
      obtain ⟨q, hq, hr⟩ := h.tabs.root hi4 hne
      have hok : FrameOk s q := h.pool.ok (by simp [hr])
      rw [hq] at hm
      rw [hm, tablePte_rwx, ptePa_tablePte_of hok]
      exact ⟨Bool.noConfusion, fun _ => ⟨g, h, .refl, .refl, by omega, tableAt_of_eq hm hok⟩⟩
    | mega _ hup hM =>
      rw [has_rwx_of_isLeaf hM.2.1]
      exact ⟨fun _ => ⟨trivial, .inr ⟨hup, hM⟩⟩, absurd rfl⟩

/-- Which addresses `map_page` may be given: the user part of the space, or any when the
kernel's tables need no protection. -/
def Reach (p : Policy) (va : Nat) : Prop := 4 ≤ vpn va 2 ∨ ¬p.strict ∧ ∀ t, ¬p.kern t

/-- The table below a root or a level-1 table is never the kernel's when the address may be used. -/
theorem Reach.not_kern (h : Inv p s g) (hr : g.role root = .tab 2 none) (hreach : Reach p va) {q : Nat}
    (hq : tableAt s root (vpn va 2) = some q) : ¬p.kern q := by
  rcases hreach with h4 | ⟨-, hk⟩
  · exact (at_of_tableAt h (.root hr) (vpn_lt va 2) (by simp) (fun _ => h4) hq).not_kern h.tabs
  · exact hk q

/-- `map_page`: intermediate tables are added, then an invalid leaf slot is written. An error
says that no frame is left, that the address is mapped, or that it lies in a megapage. -/
theorem mapPage_wp (h : Inv p s g) (hr : g.role root = .tab 2 none) (hreach : Reach p va) (flags : Word) :
    (mapPage root va pa flags).wp (fun _ s' => ∃ s1 g1 t up, Inv p s1 g1 ∧ Grows s g s1 g1 ∧ SameRoots g g1 ∧
        g1.role t = .tab 0 up ∧ ¬p.kern t ∧
        leafTable s1 root (vpn va 2) (vpn va 1) = some t ∧ has (s1.mem t (vpn va 0)) pteV = false ∧
        s' = s1.setEntry t (vpn va 0) (mkPte pa (pteV ||| flags)))
      (fun s' => ∃ g', Inv p s' g' ∧ Grows s g s' g' ∧ SameRoots g g' ∧ (g.free.length < 2 ∨ vpn va 2 < 4 ∨
        has (leafAt s root (indices va)) pteV = true)) (fun _ => False) s := by
  have hlow : (1 : Nat) = 1 → 4 ≤ vpn va (1 + 1) ∨ ¬p.strict := fun _ =>
    hreach.imp (fun h => h) (fun h => h.1)
  have hkroot : ¬p.kern root := (At.root hr).not_kern h.tabs
  simp only [mapPage, wp_bind, wp_get, wp_ite, wp_fail, wp_modify]
  refine wp_mono (mapPageStep_wp h hr hkroot hlow) (fun q s1 hq => ?_) (fun s' he => ?_)
  rotate_left
  · obtain ⟨rfl, h0 | ⟨-, hM⟩⟩ := he
    · exact ⟨g, h, .refl, .refl, .inl (by simp [h.pool.free_nil h0])⟩
    · -- no root holds a megapage
      cases h.tabs.slot hr (vpn_lt va 2) with
      | empty e => rw [e] at hM; simp [Mega] at hM
      | child q e _ => rw [e] at hM; simp [Mega] at hM
      | kernel _ hi4 _ _ => exact ⟨g, h, .refl, .refl, .inr (.inl hi4)⟩
      | mega e _ _ => cases e
  · obtain ⟨g1, h1, hg1, hroots1, hlen1, htab1⟩ := hq
    have hr1 := hg1.tab hr
    have hkq := Reach.not_kern h1 hr1 hreach htab1
    have hqr : ∃ up, g1.role q = .tab 1 up ∧ (up = none → vpn va 2 < 4) := by
      obtain ⟨-, hq | ⟨-, hi4, hq⟩⟩ := tableAt_cases h1 hr1 (vpn_lt va 2) htab1
      · exact ⟨_, hq, fun e => by cases e⟩
      · exact ⟨_, hq, fun _ => hi4⟩
    obtain ⟨up, hqr, hup⟩ := hqr
    refine wp_mono (mapPageStep_wp h1 hqr hkq fun e => by cases e) (fun t s2 ht => ?_)
      (fun s' he => ?_)
    · obtain ⟨g2, h2, hg2, hroots2, hlen2, htab2⟩ := ht
      have hg := hg1.trans hg2
      have htable : leafTable s2 root (vpn va 2) (vpn va 1) = some t := by
        rw [leafTable, hg2.down hr1 htab1]
        exact htab2
      have hkt : ¬p.kern t := by
        rcases hreach with h4 | ⟨-, hk⟩
        · exact (at_of_leafTable h2 (hg.tab hr) (vpn_lt va 2) h4 (vpn_lt va 1) htable).not_kern h2.tabs
        · exact hk t
      obtain ⟨up', htr⟩ := role_of_leafTable h2 (hg.tab hr) (vpn_lt va 2) (vpn_lt va 1) htable
      refine ⟨fun hv => ⟨g2, h2, hg, hroots1.trans hroots2, .inr ?_⟩, fun hv => ?_⟩
      · rcases Nat.lt_or_ge (vpn va 2) 4 with h4 | h4
        · exact .inl h4
        · refine .inr ?_
          have hkeep := hg.keeps (R := fun _ => True) |>.leaf trivial hr
            (.mk (vpn_lt va 0) (vpn_lt va 1) h4 (vpn_lt va 2))
          rw [indices, ← hkeep, leafAt, htable]
          exact hv
      · exact ⟨s2, g2, t, up', h2, hg, hroots1.trans hroots2, htr, hkt, htable, by simpa using hv, rfl⟩
    · obtain ⟨rfl, h0 | ⟨hn, -⟩⟩ := he
      · refine ⟨g1, h1, hg1, hroots1, .inl ?_⟩
        rw [h1.pool.free_nil h0, List.length_nil] at hlen1
        omega
      · exact ⟨g1, h1, hg1, hroots1, .inr (.inl (hup hn))⟩

/-- A page held by a guard has been handed to the leaf entry of `va`. -/
structure Mapped (s : Mm) (g : Ghost) (s' : Mm) (g' : Ghost) (root va pa : Nat) (w : Word) : Prop where
  ram : s'.ramStart = s.ramStart
  kernelRoot : s'.kernelRoot = s.kernelRoot
  page : ∀ {f}, g.role f = .page → g'.role f = .page ∧ s'.mem f = s.mem f
  page_old : ∀ {f}, g'.role f = .page → g.role f = .page
  tab : ∀ {t k up}, g.role t = .tab k up → g'.role t = .tab k up
  roots : SameRoots g g'
  pool : g'.pool = g.pool
  refs : ∀ f, leafRefs s' g' f = leafRefs s g f + (if f = pa then 1 else 0)
  ext : g'.ext pa + 1 = g.ext pa
  ext_other : ∀ {f}, f ≠ pa → g.role f = .page → g'.ext f = g.ext f
  keeps : Keeps (· ≠ root) s g s' g'
  unmapped : 4 ≤ vpn va 2 → has (leafAt s root (indices va)) pteV = false
  leaf : ∀ {l}, UserIx l → leafAt s' root l = if l = indices va then w else leafAt s root l
  data : ∀ {l}, UserIx l → has (leafAt s root l) pteV = true → has (leafAt s root l) pteU = true →
    s'.mem (ptePa (leafAt s root l)) = s.mem (ptePa (leafAt s root l))

theorem lowFlags_pteV_or {flags : Word} (h : LowFlags flags) : LowFlags (pteV ||| flags) :=
  .or (by decide) h

theorem has_or_left {e f k : Word} : has (e ||| f) k = (has e k || has f k) := by
  unfold has
  rw [Bool.eq_iff_iff]
  simp only [bne_iff_ne, ne_eq, Bool.or_eq_true, BitVec.and_comm _ k, BitVec.and_or_distrib_left,
    BitVec.or_eq_zero_iff]
  exact Decidable.not_and_iff_not_or_not

/-- Mapping a page that a guard holds. -/
theorem mapPage_page (h : Inv p s g) (hr : g.role root = .tab 2 none) (hreach : Reach p va)
    (hpa : g.role pa = .page) (he : 0 < g.ext pa) {flags : Word} (hlf : LowFlags flags)
    (hu : has flags pteU = true) (hok : p.leafOk (pteV ||| flags))
    (hpriv : p.priv → has flags pteW = true → g.ext pa + leafRefs s g pa = 1) : (mapPage root va pa flags).wp
      (fun _ s' => ∃ g', Inv p s' g' ∧ Mapped s g s' g' root va pa (mkPte pa (pteV ||| flags)))
      (fun s' => ∃ g', Inv p s' g' ∧ Grows s g s' g' ∧ SameRoots g g' ∧ (g.free.length < 2 ∨ vpn va 2 < 4 ∨
        has (leafAt s root (indices va)) pteV = true)) (fun _ => False) s := by
  refine wp_imp (mapPage_wp h hr hreach flags) fun _ s' hs => ?_
  obtain ⟨s1, g1, t, up, h1, hg, hroots, ht, hkt, htable, hinv, rfl⟩ := hs
  obtain ⟨hpa1, hext1, -⟩ := hg.page hpa
  have hokpa : FrameOk s pa := h.pool.ok (by simp [hpa])
  have hlow := lowFlags_pteV_or hlf
  generalize hw : mkPte pa (pteV ||| flags) = w
  have hwpa : ptePa w = pa := by rw [← hw, ptePa_mkPte hokpa.aligned hokpa.word hlow]
  have hwfl : pteFlags w = pteV ||| flags := by rw [← hw, pteFlags_mkPte pa hlow]
  have hwv : has w pteV = true := by
    rw [← hw, mkPte_v, has_or_left]
    simp only [Bool.or_eq_true]
    exact .inl (by decide)
  have hwu : has w pteU = true := by rw [← hw, mkPte_u, has_or_left, hu, Bool.or_true]
  have hww : has w pteW = has flags pteW := by
    rw [← hw, mkPte_w, has_or_left]
    have : has pteV pteW = false := by decide
    rw [this, Bool.false_or]
  have hword : WordOk p s1 g1 t w := by
    refine ⟨.inr hwv, fun _ => hwfl ▸ hok, fun _ _ => .inl (hwpa ▸ hpa1), fun _ hk => absurd hk hkt, ?_⟩
    intro hp _ _ hW _
    rw [hwpa, hext1, hg.refs]
    exact hpriv hp (hww ▸ hW)
  have hfz : ¬p.frozen t := fun hf => hkt (h1.tabs.frozen hf).1
  have hold : ∀ f, leafTo (s1.mem t (vpn va 0)) f = false := fun f => by simp [leafTo, hinv]
  have hwto : ∀ f, leafTo w f = decide (f = pa) := fun f => by
    rw [Bool.eq_iff_iff, leafTo_iff, decide_eq_true_eq, hwpa]
    exact ⟨fun x => x.2.2.symm, fun e => ⟨hwv, hwu, e.symm⟩⟩
  have hinv' := h1.setLeaf ht (vpn_lt va 0) hfz hword (Function.update g1.ext pa (g1.ext pa - 1))
    (fun f _ => ?_) (fun f hf => ?_)
  · refine ⟨_, hinv', ?_⟩
    have hr1 := hg.tab hr
    have hat : 4 ≤ vpn va 2 → At g1 root [vpn va 1, vpn va 2] t := fun h4 =>
      at_of_leafTable h1 hr1 (vpn_lt va 2) h4 (vpn_lt va 1) htable
    refine ⟨hg.ram, hg.kernelRoot, fun {f} hf => ?_, hg.page_old, hg.tab, hroots,
      hg.pool, fun f => ?_, ?_, fun {f} hne hf => ?_, ?_, fun h4 => ?_, fun {l} hl => ?_, fun {l} hl hv hu => ?_⟩
    · obtain ⟨hf1, -, hm⟩ := hg.page hf
      exact ⟨hf1, by rw [setEntry_mem_of_ne (ne_of_role hf1 ht), hm]⟩
    · have hc := leafRefs_setEntry (w := w) h1.pool ht (vpn_lt va 0) (Function.update g1.ext pa (g1.ext pa - 1)) f
      rw [hold, hg.refs] at hc
      simp only [Bool.toNat_false, Nat.add_zero] at hc
      rw [hc]
      split <;> simp [*]
    · simp only [update_self]
      omega
    · simp only [update_of_ne hne]
      exact (hg.page hf).2.1
    · refine (hg.keeps).trans (Keeps.setLeaf h1 ht (fun r hne j1 j2 h4 => ?_) _ _)
      exact not_at_of_leafTable h1 hr1 (vpn_lt va 2) (vpn_lt va 1) htable (.inl hne) h4
    · rw [indices, ← (hg.keeps (R := fun _ => True)).leaf trivial hr
        (.mk (vpn_lt va 0) (vpn_lt va 1) h4 (vpn_lt va 2)), leafAt, htable]
      exact hinv
    · rw [← (hg.keeps (R := fun _ => True)).leaf trivial hr hl]
      rcases Nat.lt_or_ge (vpn va 2) 4 with h4 | h4
      · -- below the kernel's root entries no page of the user part is found
        rw [if_neg fun e => by rw [e] at hl; cases hl; omega]
        exact (Keeps.setLeaf h1 ht (fun r _ j1 j2 h4' =>
          not_at_of_leafTable h1 hr1 (vpn_lt va 2) (vpn_lt va 1) htable (.inr h4) h4') w g1.ext).leaf rfl hr1 hl
      · rw [leafAt_setLeaf h1 (hat h4) hr1 hl]
        simp only [true_and]
        rfl
    · have hpos := leafRefs_pos_of_leafAt h hr hl hv hu
      rw [← hg.refs] at hpos
      rw [setEntry_mem_of_ne (ne_of_leafRefs_pos h1 ht hpos)]
      exact (hg.keeps (R := fun _ => True)).data trivial hr hl hv hu
  · rw [hold, hwto]
    by_cases e : f = pa
    · subst e
      simp only [update_self, decide_true, Bool.toNat_true, Bool.toNat_false]
      omega
    · simp only [update_of_ne e, e, decide_false]
  · have e : f ≠ pa := by
      rintro rfl
      exact hf hpa1
    rw [update_of_ne e]
    exact h1.count.ext hf

end MapPage
end OpenV
