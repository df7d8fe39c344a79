import OpenV.Kernel.Inv

/- What demand paging, swap-in and the page-fault handler do, and that they keep
   the kernel invariant. -/
namespace OpenV

open Cmd

/-! ## Addresses and flags -/

theorem vpn_pageDown (va level : Nat) : vpn (pageDown va) level = vpn va level := by
  have h : ∀ k, 12 ≤ k → pageDown va >>> k = va >>> k := by
    intro k hk
    obtain ⟨j, rfl⟩ : ∃ j, k = 12 + j := ⟨k - 12, by omega⟩
    rw [Nat.shiftRight_add, Nat.shiftRight_add]
    congr 1
    simp only [pageDown, pageSize]
    omega
  rw [vpn, vpn, h _ (Nat.le_add_right ..)]

theorem indices_pageDown (va : Nat) : indices (pageDown va) = indices va := by
  simp only [indices, vpn_pageDown]

theorem Reach.pageDown {p : Policy} {va : Nat} (h : Reach p va) : Reach p (pageDown va) := by
  unfold Reach
  rw [vpn_pageDown]
  exact h

/-- The extra flags that faults ask for. -/
def FaultExtra (extra : Word) : Prop := extra = 0#64 ∨ extra = pteX

instance (extra : Word) : Decidable (FaultExtra extra) := inferInstanceAs (Decidable (_ ∨ _))

theorem lowFlags_demandFlags {extra : Word} (h : FaultExtra extra) : LowFlags (demandFlags extra) := by
  rcases h with rfl | rfl <;> decide

theorem demandFlags_u {extra : Word} (h : FaultExtra extra) : has (demandFlags extra) pteU = true := by
  rcases h with rfl | rfl <;> decide

section Fault
variable {k : Kern} {g : Ghost} {p : Policy} {root va : Nat} {extra : Word}

theorem Mm.setFrame_of_eq {s : Mm} {f : Nat} {c : Nat → Word} (h : s.mem f = c) : s.setFrame f c = s := by
  have : (fun q => if q = f then c else s.mem q) = s.mem := by
    funext q
    split
    · rename_i e
      rw [e, h]
    · rfl
  simp only [Mm.setFrame, this]

theorem allocated_zero (s : Mm) : s.allocated.setFrame s.head (fun _ => 0#64) = s.allocated :=
  Mm.setFrame_of_eq (Mm.setFrame_mem_self ..)

/-- Demand paging maps a zero page, or leaves the address spaces as they are. -/
theorem demandPage_wp (h : Inv p k.mm g) (hr : g.role root = .tab 2 none) (hreach : Reach p va)
    (hx : FaultExtra extra) (hok : p.leafOk (pteV ||| demandFlags extra)) : (demandPage root va extra).wp
      (fun _ k' => ∃ s' g', Filled p k.mm g s' g' root va (fun _ => 0#64) (demandFlags extra) ∧
          k' = chargePage { k with mm := s' } ∨ NotFilled p k.mm g s' g' root va ∧ k' = { k with mm := s' })
      (fun k' => k' = k ∧ ((k.currentProc.all fun q => checkMemoryLimit k q.job pageSize) = false ∨
        k.mm.head = 0)) (fun _ => False) k := by
  simp only [demandPage, Kern.onMm, wp_bind, wp_get, wp_ite, wp_fail, wp_zoom, wp_allocOr h.pool]
  refine ⟨fun hl => ⟨trivial, .inl hl⟩, fun hl => ⟨fun h0 => ⟨trivial, .inr h0⟩, fun h0 => ?_⟩⟩
  have hmap := mapPage_fresh (fun _ => 0#64) h h0 hr hreach (lowFlags_demandFlags hx)
    (demandFlags_u hx) hok
  rw [allocated_zero] at hmap
  refine wp_attempt ?_
  simp only [wp_zoom]
  refine wp_mono hmap (fun _ s' hd => ?_) (fun s' hd => ?_)
  · obtain ⟨g', hd⟩ := hd
    simp only [wp_modify]
    exact ⟨s', g', .inl ⟨hd, rfl⟩⟩
  · obtain ⟨g', hd⟩ := hd
    intro e
    simp only [wp_modify]
    exact ⟨_, g', .inr ⟨hd, rfl⟩⟩

variable {sp : SwappedPage} {X : Kern → Prop}

/-- `swap_in` brings the page back, or loses it. -/
theorem swapIn_wp (h : Inv p k.mm g) (hsp : k.swapMap root va = some sp) (hlf : LowFlags sp.flags)
    (hu : has sp.flags pteU = true) (hok : p.leafOk (pteV ||| sp.flags)) (hr : g.role root = .tab 2 none)
    (hreach : Reach p va) : (swapIn root va).wp
      (fun _ k' => ∃ s' g' c, Filled p k.mm g s' g' root va c sp.flags ∧ k' = { dropSwap root va k with mm := s' })
      (fun k' => k.mm.head = 0 ∧ k' = dropSwap root va k ∨
        ∃ s' g', NotFilled p k.mm g s' g' root va ∧ k' = { dropSwap root va k with mm := s' })
      (fun _ => False) k := by
  simp only [swapIn, wp_bind, wp_get, hsp, wp_modify, Kern.onMm, wp_zoom]
  have hmm : (dropSwap root va k).mm = k.mm := rfl
  rw [hmm, wp_allocOr h.pool]
  refine ⟨fun h0 => .inl ⟨h0, rfl⟩, fun h0 => ?_⟩
  refine wp_attempt ?_
  simp only [wp_zoom]
  refine wp_mono (mapPage_fresh _ h h0 hr hreach hlf hu hok) (fun _ s' hd => ?_) (fun s' hd => ?_)
  · obtain ⟨g', hd⟩ := hd
    simp only [wp_pure]
    exact ⟨s', g', _, hd, rfl⟩
  · obtain ⟨g', hd⟩ := hd
    intro e
    simp only [wp_bind, wp_zoom, wp_modify, wp_fail]
    exact .inr ⟨_, g', hd, rfl⟩

/-! ## The kernel invariant -/

variable {held : List Nat}

theorem demandPage_keeps (h : KInv p held k g) (hr : g.role root = .tab 2 none) (hreach : Reach p va)
    (hx : FaultExtra extra) (hok : p.leafOk (pteV ||| demandFlags extra)) :
    (demandPage root va extra).wp (fun _ k' => ∃ g', KStep p held k g k' g') (fun k' => ∃ g', KStep p held k g k' g')
      X k := by
  refine wp_mono (demandPage_wp h.mm hr hreach hx hok) (fun _ k' hd => ?_) (fun k' hd => ?_)
    (fun _ hf => hf.elim)
  · obtain ⟨s', g', ⟨hd, rfl⟩ | ⟨hd, rfl⟩⟩ := hd
    · have hs := KStep.of_mm h hd.step
      obtain ⟨hm, hv, hn⟩ := chargePage_same { k with mm := s' }
      exact ⟨g', hs.trans (.of_inv hs.inv.chargePage hm hv hn)⟩
    · exact ⟨g', .of_mm h hd.step⟩
  · obtain ⟨rfl, -⟩ := hd
    exact ⟨g, .refl h⟩

theorem swapIn_keeps (h : KInv p held k g) (hsp : k.swapMap root va = some sp) (hr : g.role root = .tab 2 none)
    (hreach : Reach p va) :
    (swapIn root va).wp (fun _ k' => ∃ g', KStep p held k g k' g') (fun k' => ∃ g', KStep p held k g k' g') X k := by
  obtain ⟨hlf, hu, hok⟩ := h.swap hsp
  have hdrop : KStep p held k g (dropSwap root va k) g := .of_inv (h.dropSwap root va) rfl rfl rfl
  refine wp_mono (swapIn_wp h.mm hsp hlf hu hok hr hreach) (fun _ k' hd => ?_) (fun k' hd => ?_)
    (fun _ hf => hf.elim)
  · obtain ⟨s', g', c, hd, rfl⟩ := hd
    exact ⟨g', hdrop.trans (.of_mm hdrop.inv hd.step)⟩
  · rcases hd with ⟨-, rfl⟩ | ⟨s', g', hd, rfl⟩
    · exact ⟨g, hdrop⟩
    · exact ⟨g', hdrop.trans (.of_mm hdrop.inv hd.step)⟩

theorem handleUserPageFault_keeps (h : KInv p held k g) (hr : g.role root = .tab 2 none) (hreach : Reach p va)
    (hx : FaultExtra extra) (hok : p.leafOk (pteV ||| demandFlags extra)) :
    (handleUserPageFault root va extra).wp (fun _ k' => ∃ g', KStep p held k g k' g')
      (fun k' => ∃ g', KStep p held k g k' g') X k := by
  have hsame : ∃ g', KStep p held k g k g' := ⟨g, .refl h⟩
  simp only [handleUserPageFault, wp_ite, wp_fail, wp_bind, wp_get]
  refine ⟨fun _ => hsame, fun _ => ⟨fun _ => hsame, fun _ => ⟨fun hsome => ?_, fun _ => ?_⟩⟩⟩
  · obtain ⟨sp, hsp⟩ := Option.isSome_iff_exists.mp hsome
    exact swapIn_keeps h hsp hr hreach.pageDown
  · exact demandPage_keeps h hr hreach.pageDown hx hok

/-- What the policy has to allow for page faults. -/
structure Policy.Faults (p : Policy) : Prop where
  closed : p.Closed
  data : p.leafOk (pteV ||| demandFlags 0#64)
  code : p.leafOk (pteV ||| demandFlags pteX)

theorem handlePageFault_keeps (hp : p.Faults) (h : KInv p held k g) (hs : Small k.mm g)
    (hr : g.role root = .tab 2 none) (cause : FaultCause) (hreach : Reach p va) :
    (handlePageFault root cause va).wp (fun _ k' => ∃ g', KStep p held k g k' g')
      (fun k' => ∃ g', KStep p held k g k' g') X k := by
  cases cause with
  | instruction => exact handleUserPageFault_keeps h hr hreach (.inr rfl) hp.code
  | load => exact handleUserPageFault_keeps h hr hreach (.inl rfl) hp.data
  | store =>
    simp only [handlePageFault, wp_bind]
    refine wp_attempt ?_
    simp only [Kern.onMm, wp_zoom]
    refine wp_mono (handleStorePageFault_wp hp.closed h.mm hs hr) (fun _ s' hd => ?_) (fun s' hd => ?_)
      (fun _ hf => hf.elim)
    · obtain ⟨-, -, g', hd⟩ := hd
      simp only [wp_pure]
      exact ⟨g', .of_mm h hd.step⟩
    · obtain ⟨rfl, -⟩ := hd
      exact fun _ => handleUserPageFault_keeps h hr hreach (.inl rfl) hp.data

end Fault
end OpenV
