import OpenV.Mm.MapExact

/- What `map_page` does to the walks of a page table, for any table whose frames
   are apart from one another and from the allocator's. -/
namespace OpenV

open Cmd

/-- The table of the space of `root` at a path of indices, the innermost first. -/
def tableOf (s : Mm) (root : Nat) : List Nat → Option Nat
  | [] => some root
  | i :: path => if i < 512 then (tableOf s root path).bind (tableAt s · i) else none

/-- A page table: no table of it is free, and no frame is a table of it twice. -/
structure WellFormed (s : Mm) (g : Ghost) (root : Nat) : Prop where
  pool : PoolOk s g
  live : ∀ {path t}, path.length ≤ 2 → tableOf s root path = some t → g.role t ≠ .free
  apart : ∀ {path path' t}, path.length ≤ 2 → path'.length ≤ 2 → tableOf s root path = some t →
    tableOf s root path' = some t → path = path'

/-- The leaf word that a walk finds below `t`, by the indices it follows. -/
def walkDown (s : Mm) : List Nat → Nat → Except String Word
  | [], _ => .error "unmapped"
  | [i], t => if has (s.mem t i) pteV = false then .error "unmapped" else .ok (s.mem t i)
  | i :: rest, t =>
    if has (s.mem t i) pteV = false then .error "unmapped"
    else if isLeaf (s.mem t i) then .error "huge pages not supported"
    else walkDown s rest (ptePa (s.mem t i))

/-- The indices of `va`, the root's first. -/
def route (va : Nat) : List Nat := [vpn va 2, vpn va 1, vpn va 0]

theorem route_lt (va : Nat) : ∀ j ∈ route va, j < 512 := by simp [route, vpn_lt]

/-- A slot on a route: what is above and below it. -/
theorem slot_length {va i : Nat} {rest path : List Nat} (e : (route va).reverse ++ [] = rest.reverse ++ i :: path) :
    rest.length + path.length = 2 := by
  have h := congrArg List.length e
  simp [route] at h
  omega

section Walk
variable {s s' : Mm} {g : Ghost} {root pt i : Nat} {path : List Nat}

theorem walkPageTable_eq (s : Mm) (root va : Nat) : walkPageTable s root va =
    (walkDown s (route va) root).map fun e => (ptePa e ||| (va &&& 0xFFF), pteFlags e) := by
  simp only [walkPageTable, walkTo, walkStep, walkDown, route]
  split_ifs <;> simp [Bind.bind, Except.bind, Except.map, *]

/-- All words of the tables are the same, but for the slot `i` of the table at `path`. -/
def SameBut (s s' : Mm) (root : Nat) (path : List Nat) (i : Nat) : Prop :=
  ∀ ⦃p t j⦄, p.length ≤ 2 → tableOf s root p = some t → (p, j) ≠ (path, i) → s'.mem t j = s.mem t j

/-- A walk is the same if it is the same from the changed slot on. -/
theorem SameBut.walkDown (h : SameBut s s' root path i) (hpt : tableOf s root path = some pt) {p : List Nat} {t : Nat}
    (idxs : List Nat) (ht : tableOf s root p = some t) (hlen : p.length + idxs.length ≤ 3) (hlt : ∀ j ∈ idxs, j < 512)
    (hslot : ∀ rest, idxs.reverse ++ p = rest.reverse ++ i :: path →
      walkDown s' (i :: rest) pt = walkDown s (i :: rest) pt) :
    OpenV.walkDown s' idxs t = OpenV.walkDown s idxs t := by
  induction idxs generalizing p t with
  | nil => rfl
  | cons j rest ih =>
    have hp : p.length ≤ 2 := by
      rw [List.length_cons] at hlen
      omega
    by_cases e : (p, j) = (path, i)
    · cases e
      cases hpt.symm.trans ht
      exact hslot rest (by simp)
    have hm := h hp ht e
    cases rest with
    | nil => simp only [OpenV.walkDown, hm]
    | cons k rest =>
      simp only [OpenV.walkDown, hm]
      split
      · rfl
      split
      · rfl
      rename_i hv hl
      have hnext : tableOf s root (j :: p) = some (ptePa (s.mem t j)) := by
        simp [tableOf, hlt j (.head _), ht, tableAt, hv, hl]
      refine ih hnext ?_ (fun k hk => hlt k (.tail _ hk)) fun rest' e' => hslot rest' ?_
      · simp only [List.length_cons] at hlen ⊢
        omega
      · simpa using e'

/-- The tables down to the changed slot are the same. -/
theorem SameBut.tableOf (h : SameBut s s' root path i) (hpath : path.length ≤ 2) {p : List Nat}
    (hlen : p.length ≤ path.length) : OpenV.tableOf s' root p = OpenV.tableOf s root p := by
  induction p with
  | nil => rfl
  | cons j p ih =>
    rw [List.length_cons] at hlen
    simp only [OpenV.tableOf, ih (by omega)]
    cases ht : OpenV.tableOf s root p with
    | none => rfl
    | some t =>
      have hm := h (by omega) ht (j := j) fun e => by
        cases e
        omega
      simp only [Option.bind_some, tableAt, hm]

/-- A new table in an empty slot. -/
def Mm.grown (s : Mm) (pt i : Nat) : Mm := s.allocated.setEntry pt i (tablePte s.head)

theorem grown_mem_head (hne : pt ≠ s.head) (j : Nat) : (s.grown pt i).mem s.head j = 0#64 := by
  rw [Mm.grown, Mm.setEntry_mem_of_ne hne.symm]
  exact congrFun (Mm.setFrame_mem_self s s.head _) j

theorem walkDown_new_table (hne : pt ≠ s.head) (idxs : List Nat) :
    walkDown (s.grown pt i) idxs s.head = .error "unmapped" := by
  rcases idxs with - | ⟨j, - | ⟨k, rest⟩⟩
  · rfl
  · simp [walkDown, grown_mem_head hne]
  · simp [walkDown, grown_mem_head hne]

section
variable (h : WellFormed s g root)
include h

theorem WellFormed.ne_head (h0 : s.head ≠ 0) {p : List Nat} {t : Nat} (hp : p.length ≤ 2)
    (ht : tableOf s root p = some t) : t ≠ s.head := by
  obtain ⟨-, -, hrole⟩ := h.pool.head_free h0
  rintro rfl
  exact h.live hp ht hrole

theorem WellFormed.ptePa_head (h0 : s.head ≠ 0) : ptePa (tablePte s.head) = s.head := by
  obtain ⟨-, -, hrole⟩ := h.pool.head_free h0
  exact ptePa_tablePte_of (h.pool.ok (by simp [hrole]))

theorem WellFormed.sameBut (hpath : path.length ≤ 2) (hpt : tableOf s root path = some pt)
    (hm : ∀ {p t}, p.length ≤ 2 → tableOf s root p = some t → s'.mem t = s.mem t) (w : Word) :
    SameBut s (s'.setEntry pt i w) root path i := by
  intro p t j hp ht hne
  have hslot : ¬(t = pt ∧ j = i) := by
    rintro ⟨rfl, rfl⟩
    rw [h.apart hp hpath ht hpt] at hne
    exact hne rfl
  rw [← hm hp ht]
  exact if_neg hslot

theorem WellFormed.sameBut_grown (h0 : s.head ≠ 0) (hpath : path.length ≤ 2) (hpt : tableOf s root path = some pt) :
    SameBut s (s.grown pt i) root path i :=
  h.sameBut hpath hpt (fun hp ht => Mm.setFrame_mem_of_ne (h.ne_head h0 hp ht)) _

theorem WellFormed.tableAt_grown (h0 : s.head ≠ 0) : tableAt (s.grown pt i) pt i = some s.head := by
  simp [tableAt, Mm.grown, Mm.setEntry_mem_self, h.ptePa_head h0]

/-- The tables after a new one was made are the old ones and it. -/
theorem WellFormed.tableOf_grown (h0 : s.head ≠ 0) (hpath : path.length ≤ 2) (hpt : tableOf s root path = some pt)
    {p : List Nat} {t : Nat} (hp : p.length ≤ 2) (ht : tableOf (s.grown pt i) root p = some t) :
    tableOf s root p = some t ∨ p = i :: path ∧ t = s.head := by
  induction p generalizing t with
  | nil => exact .inl ht
  | cons j p ih =>
    have hp' : p.length ≤ 2 := Nat.le_of_succ_le hp
    simp only [tableOf, Option.ite_none_right_eq_some, Option.bind_eq_some_iff] at ht ⊢
    obtain ⟨hj, q, hq, ht⟩ := ht
    rcases ih hp' hq with hq | ⟨-, rfl⟩
    · by_cases e : (p, j) = (path, i)
      · cases e
        cases hpt.symm.trans hq
        exact .inr ⟨rfl, Option.some.inj (ht.symm.trans (h.tableAt_grown h0))⟩
      · rw [tableAt, h.sameBut_grown h0 hpath hpt hp' hq e] at ht
        exact .inl ⟨hj, q, hq, ht⟩
    · simp [tableAt, grown_mem_head (h.ne_head h0 hpath hpt)] at ht

/-- A new table changes no walk, and the table stays well-formed. -/
theorem WellFormed.grow (h0 : s.head ≠ 0) (hpath : path.length < 2) (hpt : tableOf s root path = some pt)
    (hi : i < 512) (hv : has (s.mem pt i) pteV = false) :
    WellFormed (s.grown pt i) (g.alloc s.head) root ∧ tableOf (s.grown pt i) root (i :: path) = some s.head ∧
      ∀ va, walkPageTable (s.grown pt i) root va = walkPageTable s root va := by
  have htab := fun {p t} => h.tableOf_grown (i := i) (p := p) (t := t) h0 hpath.le hpt
  have hne := h.ne_head h0 hpath.le hpt
  have hsame := h.sameBut_grown (i := i) h0 hpath.le hpt
  refine ⟨⟨?_, fun {p t} hp ht => ?_, fun {p p' t} hp hp' ht ht' => ?_⟩, ?_, fun va => ?_⟩
  · have hp := h.pool.alloc h0
    refine hp.frame_mem rfl rfl (fun f hf => Mm.setEntry_mem_of_ne ?_) rfl rfl (fun _ => Iff.rfl) fun _ => Iff.rfl
    rintro rfl
    simp only [Ghost.alloc, Function.update_of_ne hne] at hf
    exact h.live hpath.le hpt hf
  · rcases htab hp ht with ht | ⟨-, rfl⟩
    · simp only [Ghost.alloc, Function.update_of_ne (h.ne_head h0 hp ht)]
      exact h.live hp ht
    · simp [Ghost.alloc]
  · rcases htab hp ht with ht | ⟨rfl, rfl⟩ <;> rcases htab hp' ht' with ht' | ⟨rfl, e⟩
    · exact h.apart hp hp' ht ht'
    · exact absurd e (h.ne_head h0 hp ht)
    · exact absurd rfl (h.ne_head h0 hp' ht')
    · rfl
  · rw [tableOf, if_pos hi, hsame.tableOf hpath.le le_rfl, hpt, Option.bind_some, h.tableAt_grown h0]
  · rw [walkPageTable_eq, walkPageTable_eq]
    have hslot : ∀ rest, (route va).reverse ++ [] = rest.reverse ++ i :: path →
        walkDown (s.grown pt i) (i :: rest) pt = walkDown s (i :: rest) pt := fun rest e => by
      -- below the slot there was nothing, and there is nothing yet
      obtain - | ⟨k, rest⟩ := rest
      · have : 0 + path.length = 2 := slot_length e
        omega
      · have hw : (s.grown pt i).mem pt i = tablePte s.head := Mm.setEntry_mem_self ..
        simp [walkDown, hv, hw, h.ptePa_head h0, walkDown_new_table hne]
    rw [hsame.walkDown (p := []) hpt (route va) rfl (Nat.le_refl 3) (route_lt va) hslot]

/-- One round of the loop of `map_page` finds or makes the next table, and changes no walk. -/
theorem WellFormed.step (hpath : path.length < 2) (hpt : tableOf s root path = some pt) (va level : Nat) :
    (mapPageStep pt va level).wp
      (fun t s' => (∃ g', WellFormed s' g' root) ∧ tableOf s' root (vpn va level :: path) = some t ∧
        ∀ va', walkPageTable s' root va' = walkPageTable s root va') (fun s' => s' = s) (fun _ => False) s := by
  have hi := vpn_lt va level
  rw [wp_mapPageStep h.pool]
  split
  · rename_i hv
    refine ⟨fun _ => rfl, fun h0 => ?_⟩
    obtain ⟨hw, ht, hwalk⟩ := h.grow h0 hpath hpt hi hv
    exact ⟨⟨_, hw⟩, ht, hwalk⟩
  · rename_i hv
    split
    · rfl
    · rename_i hl
      refine ⟨⟨g, h⟩, ?_, fun _ => rfl⟩
      rw [tableOf, if_pos hi, hpt, Option.bind_some, tableAt_of_valid hv hl]

/-- The leaf word of a page is written into its slot. -/
theorem WellFormed.setLeaf {va l0 : Nat} (hl0 : tableOf s root [vpn va 1, vpn va 2] = some l0) {w : Word}
    (hw : has w pteV = true) (va' : Nat) : walkDown (s.setEntry l0 (vpn va 0) w) (route va') root =
      if route va' = route va then .ok w else walkDown s (route va') root := by
  have hsame : SameBut s (s.setEntry l0 (vpn va 0) w) root [vpn va 1, vpn va 2] (vpn va 0) :=
    h.sameBut (by simp) hl0 (fun _ _ => rfl) w
  split
  · rename_i e
    have hl0' := (hsame.tableOf (by simp) (by simp)).trans hl0
    simp only [tableOf, vpn_lt, if_true, Option.bind_some, Option.bind_eq_some_iff] at hl0'
    obtain ⟨l1, h1, h2⟩ := hl0'
    simp only [tableAt, Option.ite_none_right_eq_some, Bool.and_eq_true, Bool.not_eq_true', Option.some.injEq] at h1 h2
    obtain ⟨⟨hv1, hf1⟩, rfl⟩ := h1
    obtain ⟨⟨hv2, hf2⟩, e2⟩ := h2
    rw [e]
    simp [walkDown, route, hv1, hf1, hv2, hf2, e2, Mm.setEntry_mem_self, hw]
  · rename_i e
    refine hsame.walkDown (p := []) hl0 (route va') rfl (Nat.le_refl 3) (route_lt va') fun rest e' => absurd ?_ e
    rw [List.length_eq_zero_iff.mp (Nat.add_right_cancel (slot_length e'))] at e'
    simpa [route, and_comm, and_assoc] using e'

end

theorem route_eq_iff {va va' : Nat} (h : va < 2 ^ 39) (h' : va' < 2 ^ 39) :
    route va' = route va ↔ va' / 4096 = va / 4096 := by
  simp only [route, vpn_eq, List.cons.injEq, and_true]
  omega

/-- `map_page` maps the page and changes no other walk; if it fails it changes none. -/
theorem mapPage_walks {va pa : Nat} {flags : Word} (h : WellFormed s g root) (hva : va % 4096 = 0) (hlt : va < 2 ^ 39)
    (hpa : pa % 4096 = 0) (hpalt : pa < 2 ^ 64) (hf : LowFlags flags) : (mapPage root va pa flags).wp
      (fun _ s' => (∀ off < 4096, walkPageTable s' root (va + off) = .ok (pa + off, pteV ||| flags)) ∧
        ∀ va' < 2 ^ 39, va' / 4096 ≠ va / 4096 → walkPageTable s' root va' = walkPageTable s root va')
      (fun s' => ∀ va', walkPageTable s' root va' = walkPageTable s root va') (fun _ => False) s := by
  have hflags : LowFlags (pteV ||| flags) := lowFlags_pteV_or hf
  have hv : has (mkPte pa (pteV ||| flags)) pteV = true := by
    rw [mkPte_v, has_or_left]
    rfl
  have hroot : tableOf s root [] = some root := rfl
  simp only [mapPage, wp_bind, wp_get, wp_ite, wp_fail, wp_modify]
  refine wp_mono (h.step (by simp) hroot va 2) ?_ (fun _ e _ => by rw [e])
  rintro l1 s1 ⟨⟨g1, h1⟩, ht1, hw1⟩
  refine wp_mono (h1.step (by simp) ht1 va 1) ?_ (fun _ e _ => by rw [e, hw1])
  rintro l0 s2 ⟨⟨g2, h2⟩, ht2, hw2⟩
  refine ⟨fun _ va' => (hw2 va').trans (hw1 va'), fun _ => ⟨fun off hoff => ?_, fun va' hlt' hne => ?_⟩⟩
  · have hroute := (route_eq_iff hlt (show va + off < 2 ^ 39 by omega)).mpr (by omega)
    have hoff' : (va + off) &&& 0xFFF = off := by
      rw [show 0xFFF = 2 ^ 12 - 1 from rfl, Nat.and_two_pow_sub_one_eq_mod]
      omega
    have hor : pa ||| off = pa + off := by
      rw [show pa = 2 ^ 12 * (pa / 4096) by omega, Nat.two_pow_add_eq_or_of_lt hoff]
    rw [walkPageTable_eq, h2.setLeaf ht2 hv, if_pos hroute, hoff']
    simp only [Except.map, ptePa_mkPte hpa hpalt hflags, pteFlags_mkPte pa hflags, hor]
  · rw [walkPageTable_eq, h2.setLeaf ht2 hv, if_neg (mt (route_eq_iff hlt hlt').mp hne), ← walkPageTable_eq, hw2, hw1]

end Walk

/-- Three tables in a row, each below slot 0 of the one before, and no free frame. -/
def threeTables : Mm :=
  { ramStart := 0x80000000, kernelRoot := fun _ => 0, head := 0, counts := fun _ => 0
    mem := fun t i => if i = 0 ∧ (t = 0x1000 ∨ t = 0x2000) then tablePte (t + 0x1000) else 0#64 }

def noFrames : Ghost := { pool := ∅, role := fun _ => .other, ext := fun _ => 0, free := [] }

theorem tableOf_threeTables {path : List Nat} {t : Nat} (h : tableOf threeTables 0x1000 path = some t) :
    t = 0x1000 * (path.length + 1) ∧ path = List.replicate path.length 0 := by
  induction path generalizing t with
  | nil =>
    cases h
    exact ⟨rfl, rfl⟩
  | cons i path ih =>
    simp only [tableOf, Option.ite_none_right_eq_some, Option.bind_eq_some_iff] at h
    obtain ⟨-, q, hq, ht⟩ := h
    obtain ⟨hlen, hpath⟩ := ih hq
    by_cases hi : i = 0 ∧ (q = 0x1000 ∨ q = 0x2000)
    · simp only [tableAt, threeTables, if_pos hi, tablePte_v, tablePte_isLeaf, Bool.not_false, Bool.and_true, if_true,
        ptePa_tablePte (show (q + 0x1000) % 4096 = 0 by omega) (by omega), Option.some.injEq] at ht
      refine ⟨by rw [List.length_cons]; omega, ?_⟩
      rw [hi.1, List.length_cons, List.replicate_succ, ← hpath]
    · simp [tableAt, threeTables, hi] at ht

theorem threeTables_wellFormed : WellFormed threeTables noFrames 0x1000 where
  pool := ⟨by simp [noFrames], by simp [noFrames], rfl, .nil, by simp [noFrames], by simp [noFrames]⟩
  live := fun _ _ => by simp [noFrames]
  apart := fun _ _ h h' => by
    obtain ⟨e, hp⟩ := tableOf_threeTables h
    obtain ⟨e', hp'⟩ := tableOf_threeTables h'
    rw [hp, hp', Nat.succ.inj (Nat.eq_of_mul_eq_mul_left (by decide) (e.symm.trans e'))]

theorem mapPage_walks_threeTables : (mapPage 0x1000 0 0x8000 (pteR ||| pteU)).wp
    (fun _ s' => (∀ off < 4096, walkPageTable s' 0x1000 (0 + off) = .ok (0x8000 + off, pteV ||| (pteR ||| pteU))) ∧
      ∀ va' < 2 ^ 39, va' / 4096 ≠ 0 / 4096 → walkPageTable s' 0x1000 va' = walkPageTable threeTables 0x1000 va')
    (fun s' => ∀ va', walkPageTable s' 0x1000 va' = walkPageTable threeTables 0x1000 va') (fun _ => False) threeTables :=
  mapPage_walks threeTables_wellFormed rfl (by decide) rfl (by decide) (by decide)

/-- A bit above the flags moves the page. -/
theorem mapPage_high_flag : WellFormed threeTables noFrames 0x1000 ∧
    (mapPage 0x1000 0 0x8000 0x400#64 threeTables).1 = .ok () ∧
    walkPageTable (mapPage 0x1000 0 0x8000 0x400#64 threeTables).2 0x1000 0 = .ok (0x9000, pteV) :=
  ⟨threeTables_wellFormed, by decide +kernel, by decide +kernel⟩

end OpenV
