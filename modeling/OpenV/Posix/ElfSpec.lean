import OpenV.Mm.FillSpec
import OpenV.Posix.Elf

/- Loading an image is a sequence of fresh pages mapped: a step of the memory
   manager, whether or not it comes to its end. -/
namespace OpenV

open Cmd

section Load
variable {s : Mm} {g : Ghost} {p : Policy} {X : Mm → Prop} {root va : Nat} {flags : Word}

theorem mapFresh_wp (h : Inv p s g) (hr : g.role root = .tab 2 none) (hreach : Reach p va)
    (hlf : LowFlags flags) (hu : has flags pteU = true) (hok : p.leafOk (pteV ||| flags)) (oom : String)
    (content : Nat → Word) : (mapFresh oom root va content flags).wp (fun _ s' => ∃ g', MmStep p s g s' g')
      (fun s' => ∃ g', MmStep p s g s' g') X s := by
  simp only [mapFresh, wp_bind, wp_allocOr h.pool, wp_modify]
  refine ⟨fun _ => ⟨g, .refl h⟩, fun h0 => wp_attempt ?_⟩
  refine wp_mono (mapPage_fresh content h h0 hr hreach hlf hu hok) (fun _ s' hd => ?_) (fun s' hd e => ?_)
  · obtain ⟨g', hd⟩ := hd
    simp only [wp_pure]
    exact ⟨g', hd.step⟩
  · obtain ⟨g', hd⟩ := hd
    simp only [wp_bind, wp_modify, wp_fail]
    exact ⟨g', hd.step⟩

/-- A loop whose rounds are steps of the memory manager is one. -/
theorem forEach_step {ι : Type} {xs : List ι} {body : ι → Cmd Mm Unit} (h : Inv p s g)
    (hb : ∀ x ∈ xs, ∀ {s' g'}, MmStep p s g s' g' →
      (body x).wp (fun _ s'' => ∃ g'', MmStep p s' g' s'' g'') (fun s'' => ∃ g'', MmStep p s' g' s'' g'') X s') :
    (Cmd.forEach xs body).wp (fun _ s' => ∃ g', MmStep p s g s' g') (fun s' => ∃ g', MmStep p s g s' g') X s := by
  refine wp_forEach (fun _ s' => ∃ g', MmStep p s g s' g') ⟨g, .refl h⟩ (fun _ x _ s' hx hI => ?_)
    (fun _ hI => hI)
  obtain ⟨g', hs⟩ := hI
  have hlast : ∀ s'', (∃ g'', MmStep p s' g' s'' g'') → ∃ g'', MmStep p s g s'' g'' := fun s'' hd => by
    obtain ⟨g'', hd⟩ := hd
    exact ⟨g'', hs.trans hd⟩
  exact wp_mono (hb x (Cmd.mem_of_split hx) hs) (fun _ => hlast) hlast

theorem lowFlags_segmentFlags (fl : Nat) : LowFlags (segmentFlags fl) ∧ has (segmentFlags fl) pteU = true := by
  unfold segmentFlags
  split_ifs <;> decide

/-- The flags of the loaded segments, and where their pages lie. -/
def LoadsWithin (p : Policy) (data : Bytes) : Prop :=
  ∀ ph ∈ programHeaders data, ph.type = ptLoad → ph.memsz ≠ 0 → p.leafOk (pteV ||| segmentFlags ph.flags) ∧
    ∀ i < segmentPages ph, Reach p (pageDown ph.vaddr + i * pageSize)

theorem loadSegment_wp {data : Bytes} {ph : ProgramHeader} (h : Inv p s g) (hr : g.role root = .tab 2 none)
    (hph : ph.type = ptLoad → ph.memsz ≠ 0 → p.leafOk (pteV ||| segmentFlags ph.flags) ∧
      ∀ i < segmentPages ph, Reach p (pageDown ph.vaddr + i * pageSize)) (hX : ∀ s, X s) :
    (loadSegment data root ph).wp (fun _ s' => ∃ g', MmStep p s g s' g') (fun s' => ∃ g', MmStep p s g s' g')
      X s := by
  have hsame : ∃ g', MmStep p s g s g' := ⟨g, .refl h⟩
  simp only [loadSegment, wp_ite, wp_pure, wp_fail]
  refine ⟨fun _ => hsame, fun htype => ⟨fun _ => hsame, fun _ => ⟨fun _ => hsame, fun _ => ⟨fun _ => hsame,
    fun _ => ⟨fun _ => hsame, fun hmem => ?_⟩⟩⟩⟩⟩
  obtain ⟨hok, hreach⟩ := hph (Decidable.not_not.mp htype) hmem
  obtain ⟨hlf, hu⟩ := lowFlags_segmentFlags ph.flags
  refine forEach_step h fun i hi {s' g'} hs => ?_
  simp only [wp_bind, wp_ite, wp_die, wp_pure]
  exact wp_imp (mapFresh_wp hs.inv ((hs.roots _).mpr hr) (hreach i (List.mem_range.mp hi)) hlf hu hok _ _)
    fun _ _ hd => ⟨fun _ => hX _, fun _ => hd⟩

theorem loadElf_wp {data : Bytes} (h : Inv p s g) (hr : g.role root = .tab 2 none)
    (hdata : LoadsWithin p data) (hX : ∀ s, X s) :
    (loadElf data root).wp (fun _ s' => ∃ g', MmStep p s g s' g') (fun s' => ∃ g', MmStep p s g s' g') X s := by
  have hsame : ∃ g', MmStep p s g s g' := ⟨g, .refl h⟩
  simp only [loadElf, wp_ite, wp_fail, wp_bind]
  refine ⟨fun _ => hsame, fun _ => ⟨fun _ => hsame, fun _ => ⟨fun _ => hsame, fun _ => ⟨fun _ => hsame,
    fun _ => ⟨fun _ => hsame, fun _ => ?_⟩⟩⟩⟩⟩
  refine wp_imp (forEach_step h fun ph hph {s' g'} hs =>
    loadSegment_wp hs.inv ((hs.roots _).mpr hr) (hdata ph hph) hX) fun _ s' hd => ?_
  split
  · simpa only [wp_fail] using hd
  · simp only [wp_ite, wp_die, wp_pure]
    exact ⟨fun _ => hX _, fun _ => ⟨fun _ => hX _, fun _ => hd⟩⟩

end Load
end OpenV
