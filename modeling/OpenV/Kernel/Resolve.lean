import OpenV.Ipc.Rights
import OpenV.Mm.MapExact

/- Does a page fault that is answered with a return to the faulting instruction let
   that instruction through? `Permits` is what the hardware asks of an address and
   its leaf entry; `Resolves` is exactly when `handle_page_fault` either ends the
   process or leaves such an entry behind. -/
namespace OpenV

open Cmd

/-- The upper bits of a virtual address repeat bit 38; others always fault. -/
def Canonical (va : Nat) : Prop := va < 2 ^ 38 ∨ 2 ^ 64 - 2 ^ 38 ≤ va

instance (va : Nat) : Decidable (Canonical va) := inferInstanceAs (Decidable (_ ∨ _))

/-- The leaf entry `e` lets an instruction in user mode do what faulted. A writable entry that is
not readable is reserved. -/
def FaultCause.allowedBy (cause : FaultCause) (e : Word) : Bool :=
  has e pteV && has e pteU && (has e pteR || !has e pteW) &&
    match cause with
    | .instruction => has e pteX
    | .load => has e pteR
    | .store => has e pteW

/-- The access that faulted is permitted. -/
def Permits (s : Mm) (root : Nat) (cause : FaultCause) (va : Nat) : Prop :=
  Canonical va ∧ cause.allowedBy (leafAt s root (indices va)) = true

instance (s : Mm) (root : Nat) (cause : FaultCause) (va : Nat) : Decidable (Permits s root cause va) :=
  inferInstanceAs (Decidable (_ ∧ _))

/-- What demand paging asks of the job limits and of the allocator. -/
def DemandServed (k : Kern) : Prop :=
  (k.currentProc.all fun q => checkMemoryLimit k q.job pageSize) = true ∧ k.mm.head ≠ 0

/-- When `handle_user_page_fault` ends well: it refuses the address; a page comes back from swap
with flags that permit the access, or cannot come back at all; or demand paging is refused, can map
the page, or finds an entry that permits the access already. -/
def UserResolves (k : Kern) (root : Nat) (cause : FaultCause) (va : Nat) : Prop :=
  0x100000000 ≤ va → va < 0x800000000000 →
    match k.swapMap root (pageDown va) with
    | some sp => Mappable k.mm root va 1 → Canonical va ∧ cause.allowedBy (pteV ||| sp.flags) = true
    | none => DemandServed k → Canonical va ∧
        (Mappable k.mm root va 1 ∨ cause.allowedBy (leafAt k.mm root (indices va)) = true)

/-- When `handle_page_fault` ends well. A store to a copy-on-write page is answered with a private
copy, wherever the page is. -/
def Resolves (k : Kern) (root : Nat) (cause : FaultCause) (va : Nat) : Prop :=
  (cause = .store → Cowable k.mm (leafAt k.mm root (indices va)) → k.mm.head ≠ 0 →
    Canonical va ∧ has (leafAt k.mm root (indices va)) pteR = true) ∧
  (¬(cause = .store ∧ Cowable k.mm (leafAt k.mm root (indices va)) ∧ k.mm.head ≠ 0) → UserResolves k root cause va)

section Resolve
variable {p : Policy} {k : Kern} {g : Ghost} {root va : Nat} (cause : FaultCause)

theorem vpn_two_of_canonical (hva : 0x100000000 ≤ va) (hc : Canonical va) (hlt : va < 0x800000000000) :
    4 ≤ vpn va 2 := by
  rw [vpn_eq]
  rcases hc with hc | hc <;> omega

theorem allowedBy_mkPte (pa : Nat) (fl : Word) : cause.allowedBy (mkPte pa fl) = cause.allowedBy fl := by
  simp only [FaultCause.allowedBy, mkPte_v, mkPte_u, mkPte_r, mkPte_w, mkPte_x]

/-- The flags that `handle_page_fault` asks for beyond those of a data page. -/
def FaultCause.extra : FaultCause → Word
  | .instruction => pteX
  | _ => 0#64

theorem FaultCause.extra_ok : FaultExtra cause.extra := by
  cases cause <;> decide

theorem allowedBy_demand : cause.allowedBy (pteV ||| demandFlags cause.extra) = true := by
  cases cause <;> decide

theorem mappable_pageDown {s : Mm} {n : Nat} : Mappable s root (pageDown va) n ↔ Mappable s root va n := by
  simp only [Mappable, tablesMissing, vpn_pageDown, indices_pageDown]

theorem not_mappable_of_empty {s : Mm} (h0 : s.head = 0) : ¬Mappable s root va 1 := by
  rintro ⟨⟨m, -, hm⟩, -⟩
  rw [hasFree_succ, h0] at hm
  cases hm

/-- Mapping the frame that has just been taken: whether it works, and what the space then shows. -/
theorem mapPage_fresh_exact {flags : Word} (content : Nat → Word) (h : Inv p k.mm g) (h0 : k.mm.head ≠ 0)
    (hr : g.role root = .tab 2 none) (hreach : Reach p va) (hlf : LowFlags flags) (hu : has flags pteU = true)
    (hok : p.leafOk (pteV ||| flags)) : (mapPage root va k.mm.head flags).wp
      (fun _ s' => Mappable k.mm root va 1 ∧ (4 ≤ vpn va 2 →
        cause.allowedBy (leafAt s' root (indices va)) = cause.allowedBy (pteV ||| flags)))
      (fun s' => ¬Mappable k.mm root va 1 ∧ (4 ≤ vpn va 2 →
        leafAt (decrRefAndMaybeFree k.mm.head s') root (indices va) = leafAt k.mm root (indices va)))
      (fun _ => False) (k.mm.allocated.setFrame k.mm.head content) := by
  obtain ⟨h1, -, hsame, -, -⟩ := h.filled h0 content
  have hr1 := (hsame.role root 2 none).mpr hr
  have hmap : Mappable (k.mm.allocated.setFrame k.mm.head content) root va 0 ↔ Mappable k.mm root va 1 :=
    Mappable.taken h h0 hr hsame h1.pool
  refine wp_mono (wp_and (mapPage_fresh content h h0 hr hreach hlf hu hok)
    (mapPage_exact h1 hr1 hreach flags)) (fun _ s' hd => ?_) (fun s' hd => ?_) (fun _ hx => hx.1)
  · obtain ⟨⟨g', hf⟩, hm⟩ := hd
    refine ⟨hmap.mp hm, fun h4 => ?_⟩
    obtain ⟨new, -, -, -, hl⟩ := hf.leaf h4
    rw [hl (userIx_indices h4), if_pos rfl, allowedBy_mkPte]
  · obtain ⟨⟨g', hf⟩, hm⟩ := hd
    exact ⟨fun hm' => hm (hmap.mpr hm'), fun h4 =>
      (hf.keeps (R := fun _ => True)).leaf trivial hr (userIx_indices h4)⟩

theorem demandPage_exact (h : Inv p k.mm g) (hr : g.role root = .tab 2 none) (hreach : Reach p va)
    (hok : p.leafOk (pteV ||| demandFlags cause.extra)) : (demandPage root (pageDown va) cause.extra).wp
      (fun _ k' => DemandServed k ∧ (4 ≤ vpn va 2 → (cause.allowedBy (leafAt k'.mm root (indices va)) = true ↔
        Mappable k.mm root va 1 ∨ cause.allowedBy (leafAt k.mm root (indices va)) = true)))
      (fun _ => ¬DemandServed k) (fun _ => False) k := by
  simp only [demandPage, Kern.onMm, wp_bind, wp_get, wp_ite, wp_fail, wp_zoom, wp_allocOr h.pool]
  refine ⟨fun hl hd => ?_, fun hl => ⟨fun h0 hd => hd.2 h0, fun h0 => ?_⟩⟩
  · rw [hd.1] at hl
    cases hl
  · have hserved : DemandServed k := ⟨by simpa using hl, h0⟩
    have hmap := mapPage_fresh_exact cause (fun _ => 0#64) h h0 hr hreach.pageDown
      (lowFlags_demandFlags cause.extra_ok) (demandFlags_u cause.extra_ok) hok
    rw [allocated_zero] at hmap
    simp only [vpn_pageDown, indices_pageDown, mappable_pageDown] at hmap
    refine wp_attempt ?_
    simp only [wp_zoom]
    refine wp_mono hmap (fun _ s' hd => ?_) (fun s' hd _ => ?_)
    · simp only [wp_modify, (chargePage_same _).1]
      refine ⟨hserved, fun h4 => ?_⟩
      rw [hd.2 h4, allowedBy_demand cause]
      simp [hd.1]
    · simp only [wp_modify]
      refine ⟨hserved, fun h4 => ?_⟩
      rw [hd.2 h4]
      simp [hd.1]

theorem swapIn_exact {sp : SwappedPage} (h : KInv p [] k g) (hsp : k.swapMap root (pageDown va) = some sp)
    (hr : g.role root = .tab 2 none) (hreach : Reach p va) : (swapIn root (pageDown va)).wp
      (fun _ k' => Mappable k.mm root va 1 ∧ (4 ≤ vpn va 2 →
        cause.allowedBy (leafAt k'.mm root (indices va)) = cause.allowedBy (pteV ||| sp.flags)))
      (fun _ => ¬Mappable k.mm root va 1) (fun _ => False) k := by
  obtain ⟨hlf, hu, hok⟩ := h.swap hsp
  simp only [swapIn, wp_bind, wp_get, hsp, wp_modify, Kern.onMm, wp_zoom]
  have hmm : (dropSwap root (pageDown va) k).mm = k.mm := rfl
  rw [hmm, wp_allocOr h.mm.pool]
  refine ⟨not_mappable_of_empty, fun h0 => ?_⟩
  have hmap := fun content => mapPage_fresh_exact cause content h.mm h0 hr
    hreach.pageDown hlf hu hok
  simp only [vpn_pageDown, indices_pageDown, mappable_pageDown] at hmap
  refine wp_attempt ?_
  simp only [wp_zoom]
  refine wp_mono (hmap _) (fun _ s' hd => ?_) (fun s' hd _ => ?_)
  · simpa only [wp_pure] using hd
  · simp only [wp_bind, wp_zoom, wp_modify, wp_fail]
    exact hd.1

/-- `handle_user_page_fault`, asked for the flags of its cause. -/
theorem handleUserPageFault_exact (h : KInv p [] k g) (hr : g.role root = .tab 2 none) (hreach : Reach p va)
    (hok : p.leafOk (pteV ||| demandFlags cause.extra)) : (handleUserPageFault root va cause.extra).wp
      (fun _ k' => Permits k'.mm root cause va ↔ UserResolves k root cause va)
      (fun _ => True ↔ UserResolves k root cause va) (fun _ => False ↔ UserResolves k root cause va) k := by
  simp only [handleUserPageFault, wp_ite, wp_fail, wp_bind, wp_get]
  refine ⟨fun hhi => ?_, fun hhi => ⟨fun hlo => ?_, fun hlo => ?_⟩⟩
  · exact ⟨fun _ _ hlt => absurd hlt (by omega), fun _ => trivial⟩
  · exact ⟨fun _ hle => absurd hle (by omega), fun _ => trivial⟩
  · have hle : 0x100000000 ≤ va := by omega
    have hlt : va < 0x800000000000 := by omega
    have hix : Canonical va → 4 ≤ vpn va 2 := fun hc => vpn_two_of_canonical hle hc hlt
    cases hsp : k.swapMap root (pageDown va) with
    | some sp =>
      have hiff : UserResolves k root cause va ↔
          (Mappable k.mm root va 1 → Canonical va ∧ cause.allowedBy (pteV ||| sp.flags) = true) := by
        simp only [UserResolves, hle, hlt, true_implies, hsp]
      simp only [Option.isSome_some, true_implies, not_true_eq_false, false_implies, and_true]
      refine wp_mono (swapIn_exact cause h hsp hr hreach) (fun _ k' hd => ?_) (fun _ hd => ?_)
      · rw [hiff]
        exact ⟨fun hp _ => ⟨hp.1, hd.2 (hix hp.1) ▸ hp.2⟩, fun hR =>
          ⟨(hR hd.1).1, (hd.2 (hix (hR hd.1).1)).trans (hR hd.1).2⟩⟩
      · rw [hiff]
        exact ⟨fun _ hm => absurd hm hd, fun _ => trivial⟩
    | none =>
      have hiff : UserResolves k root cause va ↔ (DemandServed k → Canonical va ∧
          (Mappable k.mm root va 1 ∨ cause.allowedBy (leafAt k.mm root (indices va)) = true)) := by
        simp only [UserResolves, hle, hlt, true_implies, hsp]
      simp only [Option.isSome_none, Bool.false_eq_true, false_implies, not_false_eq_true, true_implies, true_and]
      refine wp_mono (demandPage_exact cause h.mm hr hreach hok) (fun _ k' hd => ?_) (fun _ hd => ?_)
      · rw [hiff]
        exact ⟨fun hp _ => ⟨hp.1, (hd.2 (hix hp.1)).mp hp.2⟩, fun hR =>
          ⟨(hR hd.1).1, (hd.2 (hix (hR hd.1).1)).mpr (hR hd.1).2⟩⟩
      · rw [hiff]
        exact ⟨fun _ hm => absurd hm hd, fun _ => trivial⟩

/-! ## Stores -/

theorem decrRef_mem {s : Mm} {f x : Nat} (hx : x ≠ f) : (decrRefAndMaybeFree f s).mem x = s.mem x := by
  unfold decrRefAndMaybeFree
  dsimp only
  split
  · rfl
  · split
    · rfl
    · exact Mm.setFrame_mem_of_ne hx

theorem leafTable_of_words {s s' : Mm} {i1 i2 t : Nat} (ht : leafTable s root i2 i1 = some t)
    (hroot : s'.mem root = s.mem root) (hnext : ∀ q, tableAt s root i2 = some q → s'.mem q = s.mem q) :
    leafTable s' root i2 i1 = some t := by
  rw [leafTable, Option.bind_eq_some_iff] at ht ⊢
  obtain ⟨q, hq, hqt⟩ := ht
  refine ⟨q, ?_, ?_⟩
  · rw [← hq]
    simp only [tableAt, hroot]
  · rw [← hqt]
    simp only [tableAt, hnext q hq]

/-- A store fault gives a copy-on-write page a private copy, and does nothing else. -/
theorem handleStorePageFault_exact (hcow : ∀ fl, p.leafOk fl → has fl pteCow = true → has fl pteU = true)
    {s : Mm} (h : Inv p s g) (hr : g.role root = .tab 2 none) : (handleStorePageFault root va).wp
      (fun _ s' => (Cowable s (leafAt s root (indices va)) ∧ s.head ≠ 0) ∧
        has (leafAt s root (indices va)) pteU = true ∧
        leafAt s' root (indices va) = mkPte s.head (uncowFlags (pteFlags (leafAt s root (indices va)))))
      (fun s' => s' = s ∧ ¬(Cowable s (leafAt s root (indices va)) ∧ s.head ≠ 0)) (fun _ => False) s := by
  refine wp_imp (handleStorePageFault_cases h hr) fun _ s' hd => ?_
  obtain ⟨hc, t, up, e, ht, htable, rfl, hleaf, rfl⟩ := hd
  rw [hleaf] at hc ⊢
  obtain ⟨⟨hv, hcw, hman⟩, h0⟩ := id hc
  obtain ⟨-, -, hfree⟩ := h.pool.head_free h0
  have hu : has (s.mem t (vpn va 0)) pteU = true := by
    rw [← pteFlags_u]
    exact hcow _ (h.leaves.ok ht (vpn_lt va 0) hv) (by rw [pteFlags_cow, hcw])
  have hpage := (h.leaves.user ht (vpn_lt va 0) hv hu).resolve_right fun x => by
    rw [hman] at x
    cases x
  refine ⟨hc, hu, ?_⟩
  -- the tables on the way to the entry are neither the new frame nor the page
  generalize hcont : (s.allocated.mem (ptePa (s.mem t (vpn va 0)))) = content
  obtain ⟨-, -, hsame, -, -⟩ := h.filled h0 content
  have hmem : ∀ {x n up'}, g.role x = .tab (n + 1) up' → ∀ w, (decrRefAndMaybeFree (ptePa (s.mem t (vpn va 0)))
      ((s.allocated.setFrame s.head content).setEntry t (vpn va 0) w)).mem x = s.mem x := fun hx w => by
    rw [decrRef_mem (ne_of_role hx hpage), Mm.setEntry_mem_of_ne (ne_of_role hx ht), hsame.mem _ _ _ hx]
  rw [indices, leafAt, leafTable_of_words htable (hmem hr _) fun q hq => ?_]
  · dsimp only
    rw [decrRef_mem (ne_of_role ht hpage), Mm.setEntry_mem_self]
  · obtain ⟨-, hq | ⟨-, -, hq⟩⟩ := tableAt_cases h hr (vpn_lt va 2) hq <;> exact hmem hq _

theorem allowedBy_uncow {e : Word} (hu : has e pteU = true) :
    FaultCause.store.allowedBy (uncowFlags (pteFlags e)) = has e pteR := by
  obtain ⟨hv, hw, -, hr, -, hu'⟩ := has_uncowFlags (pteFlags e)
  simp [FaultCause.allowedBy, hv, hw, hr, hu', pteFlags_u, pteFlags_r, hu]

theorem handlePageFault_exact (hp : p.Faults) (hcow : ∀ fl, p.leafOk fl → has fl pteCow = true → has fl pteU = true)
    (h : KInv p [] k g) (hr : g.role root = .tab 2 none) (hreach : Reach p va) :
    (handlePageFault root cause va).wp (fun _ k' => Permits k'.mm root cause va ↔ Resolves k root cause va)
      (fun _ => True ↔ Resolves k root cause va) (fun _ => False ↔ Resolves k root cause va) k := by
  have huser : ∀ {c : FaultCause}, c ≠ .store → (Resolves k root c va ↔ UserResolves k root c va) := fun hc => by
    simp [Resolves, hc]
  cases cause with
  | instruction =>
    simp only [huser (c := .instruction) (by decide)]
    exact handleUserPageFault_exact .instruction h hr hreach hp.code
  | load =>
    simp only [huser (c := .load) (by decide)]
    exact handleUserPageFault_exact .load h hr hreach hp.data
  | store =>
    simp only [handlePageFault, wp_bind]
    refine wp_attempt ?_
    simp only [Kern.onMm, wp_zoom]
    refine wp_mono (handleStorePageFault_exact hcow h.mm hr) (fun _ s' hd => ?_) (fun s' hd => ?_)
      (fun _ hf => hf.elim)
    · obtain ⟨⟨hc, h0⟩, hu, hl⟩ := hd
      simp only [wp_pure]
      simp only [Resolves, Permits, hc, h0, hl, allowedBy_mkPte, allowedBy_uncow hu, true_implies, ne_eq,
        not_false_eq_true, and_self, not_true_eq_false, false_implies, and_true]
    · obtain ⟨rfl, hno⟩ := hd
      have hiff : Resolves k root .store va ↔ UserResolves k root .store va := by
        refine ⟨fun hR => hR.2 fun x => hno x.2, fun hR => ⟨fun _ hc h0 => absurd ⟨hc, h0⟩ hno, fun _ => hR⟩⟩
      simp only [hiff]
      exact fun _ => handleUserPageFault_exact .store h hr hreach hp.data

end Resolve

/-- `handle_page_fault` ends the process or returns to an instruction that can now go on, if and only
if the fault is one that it resolves. -/
theorem fault_resolved_iff {k : Kern} {q : Process} (h : Sound anyLeaf k) (hq : k.currentProc = some q)
    (cause : FaultCause) (va : Nat) :
    (handlePageFault q.root cause va).wp (fun _ k' => Permits k'.mm q.root cause va) (fun _ => True) (fun _ => False) k ↔
      Resolves k q.root cause va := by
  obtain ⟨g, h⟩ := h
  have hreach := reach_of_no_kern (p := anyLeaf) (fun h => h) (fun _ h => h)
  exact wp_iff (handlePageFault_exact cause anyLeaf_serves.faults (fun _ h => h) h (h.root hq) (hreach va))

/-- A process with an empty address space. -/
def emptyRun : List Op := [.spawn ⟨true, 0⟩, .schedule 1]

/-- A load from an address that is not mapped, with a frame for the page and two for its tables. -/
theorem fault_resolved_iff_demand : ∃ k q, Sound anyLeaf k ∧ k.currentProc = some q ∧
    (handlePageFault q.root .load 0x100000000).wp (fun _ k' => Permits k'.mm q.root .load 0x100000000)
      (fun _ => True) (fun _ => False) k := by
  have h1 := counts_lt (boot_counts_lt 20) [(517, 1)] (by decide)
  obtain ⟨k, hk, hend⟩ := (Option.any_eq_true _ _).mp (show (runAll Op.run emptyRun (booted 20)).any (fun k =>
    k.currentProc.any fun q => (k.swapMap q.root (pageDown 0x100000000)).isNone &&
      tablesMissing k.mm q.root 0x100000000 == some 2 && k.mm.hasFree 3 &&
      !has (leafAt k.mm q.root (indices 0x100000000)) pteV) = true by decide +kernel)
  obtain ⟨q, hq, hfacts⟩ := (Option.any_eq_true _ _).mp hend
  simp only [Bool.and_eq_true, Option.isNone_iff_eq_none, beq_iff_eq, Bool.not_eq_true'] at hfacts
  obtain ⟨⟨⟨hswap, hmiss⟩, hfree⟩, hleaf⟩ := hfacts
  have hs := (run_sound anyLeaf_serves ⟨_, boot_sound (anyLeaf_boots 20)⟩ (boot_counted 20) hk
    ⟨⟨trivial, fun i _ => h1 i⟩, ⟨trivial, fun i _ => h1 i⟩, trivial⟩).1
  refine ⟨k, q, hs, hq, (fault_resolved_iff hs hq .load _).mpr ⟨(fun h => nomatch h), fun _ _ _ => ?_⟩⟩
  rw [hswap]
  exact fun _ => ⟨by decide, .inl ⟨⟨2, hmiss, hfree⟩, hleaf⟩⟩

/-- A page that was mapped for execution is stored to: the handler finds it mapped, drops the error
and returns to the store, which faults again on the same entry. -/
theorem fault_recurs : ∃ k q, Sound anyLeaf k ∧ k.currentProc = some q ∧
    ∃ k', handlePageFault q.root .store 0x100000000 k = (.ok (), k') ∧
      leafAt k'.mm q.root (indices 0x100000000) = leafAt k.mm q.root (indices 0x100000000) ∧
      ¬Permits k'.mm q.root .store 0x100000000 := by
  have h1 := counts_lt (boot_counts_lt 20) [(517, 1)] (by decide)
  have h2 := counts_lt h1 [(518, 1), (519, 1), (520, 1)] (by decide)
  obtain ⟨k, hk, hend⟩ := (Option.any_eq_true _ _).mp (show (runAll Op.run
    (emptyRun ++ [.fault .instruction 0x100000000]) (booted 20)).any (fun k => k.currentProc.any fun q =>
      let r := handlePageFault q.root .store 0x100000000 k
      decide (r.1 = .ok () ∧ leafAt r.2.mm q.root (indices 0x100000000) = leafAt k.mm q.root (indices 0x100000000) ∧
        ¬Permits r.2.mm q.root .store 0x100000000)) = true by decide +kernel)
  obtain ⟨q, hq, hbad⟩ := (Option.any_eq_true _ _).mp hend
  refine ⟨k, q, ?_, hq, ?_⟩
  · exact (run_sound anyLeaf_serves ⟨_, boot_sound (anyLeaf_boots 20)⟩ (boot_counted 20) hk
      ⟨⟨trivial, fun i _ => h1 i⟩, ⟨trivial, fun i _ => h1 i⟩,
        ⟨reach_of_no_kern (p := anyLeaf) (fun h => h) (fun _ h => h) _, fun i _ => h2 i⟩, trivial⟩).1
  · obtain ⟨hrun, hbad⟩ := of_decide_eq_true hbad
    exact ⟨_, Cmd.eq_of_fst hrun, hbad⟩

end OpenV
