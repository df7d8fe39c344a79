import OpenV.Kernel.Boot

/- Who owns a frame. A frame on the free list is mapped by no process and listed
   by no memory object, and it is there once, as long as no memory object goes
   while it is mapped, physical mappings stay off managed memory, and every leaf
   is one that the walks recognise. None of the three is checked by the source. -/
namespace OpenV

/-- Some user entry of the space of `root` maps the frame `f`. -/
def Maps (s : Mm) (root f : Nat) : Prop := ∃ va, leafTo (leafAt s root (indices va)) f = true

/-- The free list has no duplicates and holds no frame that is in use. -/
def FreeListSafe (k : Kern) : Prop :=
  ∃ l, Linked (fun f => (k.mm.mem f 0).toNat) k.mm.head l ∧ l.Nodup ∧ ∀ f ∈ l,
    (∀ pid q, k.procs pid = some q → ¬Maps k.mm q.root f) ∧
    ∀ id v, k.vmos id = some v → f ∉ v.physicalPages

/-- Every leaf is recognised as one, and only user pages are copy-on-write. -/
def leafShaped : Policy where
  leafOk := fun fl => isLeaf fl = true ∧ (has fl pteCow = true → has fl pteU = true)
  priv := False
  strict := False
  kern := fun _ => False
  frozen := fun _ => False
  image := fun _ _ => 0#64
  entries := fun _ => 0#64

section Flags

theorem isLeaf_sharedFlags (m : Bool) (fl : Word) : isLeaf (sharedFlags m fl) = isLeaf fl := by
  rw [isLeaf_eq, isLeaf_eq, (has_sharedFlags m fl).2.1, (has_sharedFlags m fl).2.2.1]

theorem isLeaf_uncowFlags (fl : Word) : isLeaf (uncowFlags fl) = isLeaf fl := by
  obtain ⟨-, -, -, hr, hx, -⟩ := has_uncowFlags fl
  rw [isLeaf_eq, isLeaf_eq, hr, hx]

/-- Sharing marks only user pages. -/
theorem cow_user_shared {fl : Word} (m : Bool) (h : has fl pteCow = true → has fl pteU = true) :
    has (sharedFlags m fl) pteCow = true → has (sharedFlags m fl) pteU = true := by
  rw [has_sharedFlags_cow, (has_sharedFlags m fl).2.2.2, Bool.or_eq_true, Bool.and_eq_true, Bool.and_eq_true]
  exact fun hc => hc.elim h fun hw => hw.1.1

theorem cow_user_uncow (fl : Word) : has (uncowFlags fl) pteCow = true → has (uncowFlags fl) pteU = true := by
  rw [(has_uncowFlags fl).2.2.1]
  exact nofun

end Flags

instance (fl : Word) : Decidable (leafShaped.leafOk fl) := inferInstanceAs (Decidable (_ ∧ _))

theorem leafShaped_serves : leafShaped.Serves where
  faults := {
    closed := {
      shared := fun fl m h => ⟨by rw [isLeaf_sharedFlags]; exact h.1, cow_user_shared m h.2⟩
      uncow := fun fl h hc => ⟨h.2 hc, by rw [isLeaf_uncowFlags]; exact h.1, cow_user_uncow fl⟩
      kern := .inr fun _ h => h }
    data := by decide
    code := by decide }
  shared := fun h => h
  plain := by decide

theorem leafShaped_boots (n : Nat) : leafShaped.Boots n where
  rw := by decide
  rx := by decide
  kern := .inr ⟨fun h => h, fun _ h => h⟩
  frozen := fun _ h => h.elim
  entries := fun h => h.elim

/-! ## Steps -/

/-- The flags of the loaded segments of an image. -/
def SegmentsAre (P : Word → Prop) (data : Bytes) : Prop :=
  ∀ ph ∈ programHeaders data, ph.type = ptLoad → ph.memsz ≠ 0 → P (segmentFlags ph.flags)

/-- The steps after which frames keep their owners. -/
def Op.Careful (k : Kern) : Op → Prop
  | .vmoMap _ _ _ prot => isLeaf (protFlags prot) = true
  | .load data => SegmentsAre (isLeaf · = true) data
  | .physMap _ pa len => Unmanaged k pa len
  | .close handle => Droppable (k.closed handle)
  | .exec data => SegmentsAre (isLeaf · = true) data ∧ Droppable k.execed
  | .exit pid status => Droppable (k.exited pid status)
  | .reap pid => Droppable (k.setProc pid none)
  | _ => True

section Safe
variable {p : Policy} {k : Kern}

theorem reach_of_no_kern (hs : ¬p.strict) (hk : ∀ t, ¬p.kern t) (va : Nat) : Reach p va := .inr ⟨hs, hk⟩

theorem protFlags_cow (prot : Nat) : has (protFlags prot) pteCow = false := by
  unfold protFlags
  split_ifs <;> decide

theorem isLeaf_pteV_or (fl : Word) : isLeaf (pteV ||| fl) = isLeaf fl := by
  rw [isLeaf_eq, isLeaf_eq, has_or_left, has_or_left]
  simp only [show has pteV pteR = false by decide, show has pteV pteX = false by decide, Bool.false_or]

theorem segmentFlags_cow (fl : Nat) : has (pteV ||| segmentFlags fl) pteCow = false := by
  unfold segmentFlags
  split_ifs <;> decide

theorem loadsWithin_leafShaped {data : Bytes} (h : SegmentsAre (isLeaf · = true) data) :
    LoadsWithin leafShaped data := by
  intro ph hph ht hm
  refine ⟨⟨by rw [isLeaf_pteV_or]; exact h ph hph ht hm, fun hc => ?_⟩,
    fun _ _ => reach_of_no_kern (fun h => h) (fun _ h => h) _⟩
  rw [segmentFlags_cow] at hc
  cases hc

theorem Op.Careful.allowed {op : Op} (h : op.Careful k) : op.Allowed leafShaped k := by
  have hreach := reach_of_no_kern (p := leafShaped) (fun h => h) (fun _ h => h)
  have hleaf : ∀ fl, leafShaped.leafOk fl → isLeaf fl = true := fun _ h => h.1
  cases op with
  | fault cause va => exact hreach va
  | load data => exact loadsWithin_leafShaped h
  | vmoMap handle vaHint mapSize prot =>
    refine ⟨⟨h, fun hc => ?_⟩, fun _ _ _ _ _ => hreach _⟩
    rw [protFlags_cow] at hc
    cases hc
  | unmap fuel va size => exact .inl fun _ h => h
  | close handle => exact h
  | physMap va pa len => exact ⟨h, fun _ _ _ => hreach _⟩
  | exec data => exact ⟨loadsWithin_leafShaped h.1, h.2, hleaf⟩
  | exit pid status => exact h
  | reap pid => exact ⟨h, hleaf⟩
  | _ => exact trivial

theorem Maps.leafRefs_pos {s : Mm} {g : Ghost} {r f : Nat} (hm : Maps s r f) (h : Inv p s g)
    (hr : g.role r = .tab 2 none) : 0 < leafRefs s g f := by
  obtain ⟨va, hto⟩ := hm
  cases ht : leafTable s r (vpn va 2) (vpn va 1) with
  | none =>
    rw [indices, leafAt, ht, leafTo_iff, has_zero] at hto
    cases hto.1
  | some t =>
    rw [indices, leafAt, ht] at hto
    obtain ⟨up, hrole⟩ := role_of_leafTable h hr (vpn_lt va 2) (vpn_lt va 1) ht
    exact (OpenV.leafRefs_pos h.pool).mpr ⟨t, up, _, hrole, vpn_lt va 0, hto⟩

/-- The kernel invariant says who owns a frame. -/
theorem Sound.freeListSafe (h : Sound p k) : FreeListSafe k := by
  obtain ⟨g, h⟩ := h
  refine ⟨g.free, h.mm.pool.linked, h.mm.pool.nodup, fun f hf => ⟨fun pid q hq hmaps => ?_, fun id v hv hmem => ?_⟩⟩
  · have hfree := (h.mm.pool.mem_free f).mp hf
    have hpos := hmaps.leafRefs_pos h.mm (h.root hq)
    rw [leafRefs_eq_zero h.mm.pool h.mm.leaves (by simp [hfree]) (by simp [hfree])] at hpos
    exact Nat.lt_irrefl 0 hpos
  · have hfree := (h.mm.pool.mem_free f).mp hf
    have hpage := h.mm.page_of_ext (h.ext_pos hv hmem)
    rw [hfree] at hpage
    cases hpage

/-- The process maps its memory object, unmaps it and closes the handle. -/
def tidyRun : List Op := [.spawn ⟨true, 0⟩, .schedule 1, .vmoCreate 4096, .vmoMap 65536 0 4096 3,
  .unmap 2 0x400000000 4096, .close 65536]

set_option maxRecDepth 20000 in
theorem tidyRun_counted : Along Op.run (fun _ _ k' => Counted k') tidyRun (booted 20) := by
  have h1 := counts_lt (boot_counts_lt 20) [(517, 1)] (by decide)
  have h2 := counts_lt h1 [(518, 1)] (by decide)
  have h3 := counts_lt h2 [(518, 2), (519, 1), (520, 1)] (by decide)
  have h4 := counts_lt h3 [(518, 1)] (by decide)
  have h5 := counts_lt h4 [(518, 0)] (by decide)
  exact ⟨fun i _ => h1 i, fun i _ => h1 i, fun i _ => h2 i, fun i _ => h3 i, fun i _ => h4 i, fun i _ => h5 i, trivial⟩

theorem not_freeListSafe {pid va : Nat} {q : Process} (hq : k.procs pid = some q) (h0 : k.mm.head ≠ 0)
    (hmap : leafTo (leafAt k.mm q.root (indices va)) k.mm.head = true) : ¬FreeListSafe k := by
  intro h
  obtain ⟨l, hl, -, hsafe⟩ := h
  cases l with
  | nil => exact h0 hl
  | cons f rest =>
    obtain ⟨e, -⟩ := hl
    exact (hsafe f (.head _)).1 pid q hq ⟨va, by rw [← e]; exact hmap⟩

/-- `f` is a table of the address space under `r`, outside the part that all share. -/
inductive TableOf (s : Mm) (r : Nat) : Nat → Prop
  | root : TableOf s r r
  | mid {i f : Nat} : 4 ≤ i → i < 512 → tableAt s r i = some f → TableOf s r f
  | leaf {i j f : Nat} : 4 ≤ i → i < 512 → j < 512 → leafTable s r i j = some f → TableOf s r f

/-- The role of a table leads back to its root. -/
theorem TableOf.role {s : Mm} {g : Ghost} {r f : Nat} (hf : TableOf s r f) (h : Inv p s g) (hr : g.role r = .tab 2 none) :
    g.role f = .tab 2 none ∧ f = r ∨ (∃ i, g.role f = .tab 1 (some (r, i))) ∨
      ∃ t i j, g.role f = .tab 0 (some (t, j)) ∧ g.role t = .tab 1 (some (r, i)) := by
  have hmid : ∀ {i t}, 4 ≤ i → i < 512 → tableAt s r i = some t → g.role t = .tab 1 (some (r, i)) := fun h4 hi ht =>
    (tableAt_cases h hr hi ht).2.resolve_right fun hk => by omega
  cases hf with
  | root => exact .inl ⟨hr, rfl⟩
  | mid h4 hi ht => exact .inr (.inl ⟨_, hmid h4 hi ht⟩)
  | leaf h4 hi hj ht =>
    obtain ⟨t, hm, ht⟩ := Option.bind_eq_some_iff.mp ht
    have hrole := hmid h4 hi hm
    exact .inr (.inr ⟨t, _, _, (tableAt_cases h hrole hj ht).2.resolve_right fun hk => by omega, hrole⟩)

end Safe
end OpenV
