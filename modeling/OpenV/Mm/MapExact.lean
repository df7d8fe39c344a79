import OpenV.Mm.MapSpec

/- When `map_page` succeeds, exactly: no large page is in the way, the allocator
   has a frame for every table that is missing, and the slot is free. -/
namespace OpenV

open Cmd

/-- The allocator can hand out `n` frames. -/
def Mm.hasFree (s : Mm) (n : Nat) : Bool := chainHas (fun f => (s.mem f 0).toNat) n s.head

/-- How many tables `map_page` has to make for `va`; none if a leaf is where a table should be. -/
def tablesMissing (s : Mm) (root va : Nat) : Option Nat :=
  let e2 := s.mem root (vpn va 2)
  if has e2 pteV = false then some 2
  else if has e2 (pteR ||| pteW ||| pteX) then none
  else
    let e1 := s.mem (ptePa e2) (vpn va 1)
    if has e1 pteV = false then some 1
    else if has e1 (pteR ||| pteW ||| pteX) then none
    else some 0

/-- There are frames for the tables that `va` lacks and `n` more, and nothing is mapped at `va`. -/
def Mappable (s : Mm) (root va n : Nat) : Prop :=
  (∃ m, tablesMissing s root va = some m ∧ s.hasFree (m + n) = true) ∧
    has (leafAt s root (indices va)) pteV = false

section Exact
variable {s : Mm} {g : Ghost} {p : Policy} {root va pa pt level : Nat}

theorem PoolOk.hasFree (h : PoolOk s g) (n : Nat) : s.hasFree n = true ↔ n ≤ g.free.length :=
  h.linked.chainHas n

theorem hasFree_succ (s : Mm) (n : Nat) : s.hasFree (n + 1) = (s.head != 0 && chainHas (fun f => (s.mem f 0).toNat) n
    (s.mem s.head 0).toNat) := rfl

/-- Taking a frame leaves one less. -/
theorem PoolOk.hasFree_allocated (h : PoolOk s g) (h0 : s.head ≠ 0) (n : Nat) :
    s.allocated.hasFree n = s.hasFree (n + 1) := by
  obtain ⟨rest, hfree, -⟩ := h.head_free h0
  rw [Bool.eq_iff_iff, (h.alloc h0).hasFree, h.hasFree]
  simp [Ghost.alloc, hfree]

/-- One round of the loop of `map_page`, by what the slot holds. -/
theorem wp_mapPageStep (h : PoolOk s g) {Q : Nat → Mm → Prop} {E X : Mm → Prop} :
    (mapPageStep pt va level).wp Q E X s ↔ if has (s.mem pt (vpn va level)) pteV = false then
        (s.head = 0 → E s) ∧ (s.head ≠ 0 → Q s.head (s.allocated.setEntry pt (vpn va level) (tablePte s.head)))
      else if has (s.mem pt (vpn va level)) (pteR ||| pteW ||| pteX) = true then E s
      else Q (ptePa (s.mem pt (vpn va level))) s := by
  simp only [mapPageStep, wp_bind, wp_get, wp_ite, wp_allocOr h, wp_modify, wp_fail]
  split
  · rename_i hv
    simp only [hv, true_implies, not_true_eq_false, false_implies, and_true]
    refine and_congr Iff.rfl (imp_congr_right fun h0 => ?_)
    obtain ⟨-, -, hrole⟩ := h.head_free h0
    rw [Mm.setEntry_mem_self, tablePte_rwx, ptePa_tablePte_of (h.ok (by simp [hrole]))]
    simp
  · rename_i hv
    split
    · rename_i hl
      simp [hv, hl]
    · rename_i hl
      simp [hv, hl]

theorem tableAt_of_valid {i : Nat} (hv : has (s.mem pt i) pteV ≠ false)
    (hl : has (s.mem pt i) (pteR ||| pteW ||| pteX) ≠ true) : tableAt s pt i = some (ptePa (s.mem pt i)) := by
  have hnl : isLeaf (s.mem pt i) = false := Bool.eq_false_iff.mpr fun e => hl (has_rwx_of_isLeaf e)
  rw [tableAt, Bool.ne_false_iff.mp hv, hnl]
  rfl

theorem tableAt_of_invalid {i : Nat} (hv : has (s.mem pt i) pteV = false) : tableAt s pt i = none := by
  rw [tableAt, hv]
  rfl

/-- The slot of a table that has just been made is free. -/
theorem leaf_of_new_table (h : Inv p s g) (h0 : s.head ≠ 0) {t i j : Nat} (hne : t ≠ s.head) (w : Word) :
    has ((s.allocated.setEntry t i w).mem s.head j) pteV = false := by
  rw [Mm.setEntry_mem_of_ne hne.symm, (h.fresh_allocated h0).2 j, has_zero]

/-- `map_page` succeeds if and only if `va` can be mapped. -/
theorem mapPage_exact (h : Inv p s g) (hr : g.role root = .tab 2 none) (hreach : Reach p va) (flags : Word) :
    (mapPage root va pa flags).wp (fun _ _ => Mappable s root va 0) (fun _ => ¬Mappable s root va 0)
      (fun _ => False) s := by
  have hi2 := vpn_lt va 2
  have hi1 := vpn_lt va 1
  simp only [mapPage, wp_bind, wp_mapPageStep h.pool, wp_get, wp_ite, wp_fail]
  split
  · -- both tables are missing
    rename_i hv2
    have hmiss : tablesMissing s root va = some 2 := if_pos hv2
    have hleaf : leafAt s root (indices va) = 0#64 := by
      simp only [indices, leafAt, leafTable, tableAt_of_invalid hv2, Option.bind_none]
    have hiff : Mappable s root va 0 ↔ s.hasFree 2 = true := by
      simp [Mappable, hmiss, hleaf]
    rw [hiff]
    refine ⟨fun h0 => ?_, fun h0 => ?_⟩
    · rw [hasFree_succ, h0]
      simp
    · have he := (h.tabs.slot hr hi2).eq_zero h.tabs hv2
      have hkroot : ¬p.kern root := (At.root hr).not_kern h.tabs
      obtain ⟨-, -, hrole⟩ := h.pool.head_free h0
      obtain ⟨h1, hg1, -, hz, -⟩ := h.grow h0 hr hi2 he hkroot fun _ => hreach.imp (fun h => h) (fun h => h.1)
      have htab : ((g.alloc s.head).toTable s.head 1 (some (root, vpn va 2))).role s.head = .tab 1 (some (root, vpn va 2)) :=
        Function.update_self ..
      rw [wp_mapPageStep h1.pool, hz _ hi1, has_zero, ← h.pool.hasFree_allocated h0 1, hasFree_succ]
      have hhead : (s.allocated.setEntry root (vpn va 2) (tablePte s.head)).head = s.allocated.head := rfl
      refine ⟨fun h01 => ?_, fun h01 => ?_⟩
      · rw [← hhead, h01]
        simp
      · obtain ⟨-, -, hrole1⟩ := h1.pool.head_free h01
        rw [leaf_of_new_table h1 h01 (ne_of_role htab hrole1)]
        rw [← hhead]
        simp [chainHas, h01]
  · rename_i hv2
    split
    · rename_i hl2
      have hmiss : tablesMissing s root va = none := by
        simp only [tablesMissing, if_neg hv2, if_pos hl2]
      simp [Mappable, hmiss]
    · rename_i hl2
      have ht2 := tableAt_of_valid hv2 hl2
      obtain ⟨up, hqr⟩ := role_of_tableAt h hr hi2 ht2
      split
      · -- the level-0 table is missing
        rename_i hv1
        have hmiss : tablesMissing s root va = some 1 := by
          simp only [tablesMissing, if_neg hv2, if_neg hl2, if_pos hv1]
        have hleaf : leafAt s root (indices va) = 0#64 := by
          simp only [indices, leafAt, leafTable, ht2, Option.bind_some, tableAt_of_invalid hv1]
        have hiff : Mappable s root va 0 ↔ s.hasFree 1 = true := by
          simp [Mappable, hmiss, hleaf]
        rw [hiff, hasFree_succ]
        refine ⟨fun h0 => by simp [h0], fun h0 => ?_⟩
        obtain ⟨-, -, hrole⟩ := h.pool.head_free h0
        rw [leaf_of_new_table h h0 (ne_of_role hqr hrole)]
        simp [h0, chainHas]
      · rename_i hv1
        split
        · rename_i hl1
          have hmiss : tablesMissing s root va = none := by
            simp only [tablesMissing, if_neg hv2, if_neg hl2, if_neg hv1, if_pos hl1]
          simp [Mappable, hmiss]
        · rename_i hl1
          have hmiss : tablesMissing s root va = some 0 := by
            simp only [tablesMissing, if_neg hv2, if_neg hl2, if_neg hv1, if_neg hl1]
          have hleaf : leafAt s root (indices va) =
              s.mem (ptePa (s.mem (ptePa (s.mem root (vpn va 2))) (vpn va 1))) (vpn va 0) := by
            simp only [indices, leafAt, leafTable, ht2, Option.bind_some, tableAt_of_valid hv1 hl1]
          have hiff : Mappable s root va 0 ↔ has (leafAt s root (indices va)) pteV = false := by
            simp [Mappable, hmiss, Mm.hasFree, chainHas]
          rw [hiff, hleaf]
          simp

/-- The tables of a space are read alike in two states whose tables agree. -/
theorem tableAt_same {s' : Mm} {g' : Ghost} (e : SameTables s s' g g') {t k i : Nat} {up : Option (Nat × Nat)}
    (ht : g.role t = .tab k up) : tableAt s' t i = tableAt s t i := by
  simp only [tableAt, e.mem t k up ht]

section
variable {g' : Ghost} {s' : Mm} (h : Inv p s g) (e : SameTables s s' g g') (hr : g.role root = .tab 2 none)
include h e hr

theorem leafTable_same : leafTable s' root (vpn va 2) (vpn va 1) = leafTable s root (vpn va 2) (vpn va 1) := by
  rw [leafTable, leafTable, tableAt_same e hr]
  cases hq : tableAt s root (vpn va 2) with
  | none => rfl
  | some q =>
    obtain ⟨up, hqr⟩ := role_of_tableAt h hr (vpn_lt va 2) hq
    exact tableAt_same e hqr

theorem leafAt_same : leafAt s' root (indices va) = leafAt s root (indices va) := by
  simp only [indices, leafAt, leafTable_same h e hr]
  cases hl : leafTable s root (vpn va 2) (vpn va 1) with
  | none => rfl
  | some t =>
    obtain ⟨up, ht⟩ := role_of_leafTable h hr (vpn_lt va 2) (vpn_lt va 1) hl
    simp only [e.mem t 0 up ht]

theorem tablesMissing_same : tablesMissing s' root va = tablesMissing s root va := by
  simp only [tablesMissing, e.mem root 2 none hr]
  split
  · rfl
  · rename_i hv
    split
    · rfl
    · rename_i hl
      obtain ⟨up, hqr⟩ := role_of_tableAt h hr (vpn_lt va 2) (tableAt_of_valid hv hl)
      rw [e.mem _ 1 up hqr]

end

/-- With a frame in hand, `va` can be mapped if it could before with one frame more. -/
theorem Mappable.taken {s' : Mm} (h : Inv p s g) (h0 : s.head ≠ 0) (hr : g.role root = .tab 2 none)
    (e : SameTables s s' g (g.alloc s.head)) (hp : PoolOk s' (g.alloc s.head)) :
    Mappable s' root va 0 ↔ Mappable s root va 1 := by
  obtain ⟨rest, hfree, -⟩ := h.pool.head_free h0
  have hlen : ∀ m, s'.hasFree (m + 0) = true ↔ s.hasFree (m + 1) = true := fun m => by
    rw [hp.hasFree, h.pool.hasFree]
    simp [Ghost.alloc, hfree]
  simp only [Mappable, tablesMissing_same h e hr, leafAt_same h e hr, hlen]

end Exact
end OpenV
