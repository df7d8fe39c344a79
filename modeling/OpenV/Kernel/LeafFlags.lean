import OpenV.Kernel.Ownership

/- The flags of leaf entries: no user page is both writable and executable, and
   the walks that clone and destroy an address space take no data page for a
   table, as long as the protections asked for and the segments loaded are
   themselves so. `sys_vmo_map` and `load_elf` pass on whatever they are given. -/
namespace OpenV

/-! ## Writable or executable -/

/-- No user page is both writable and executable. -/
def WriteXorExec (k : Kern) : Prop :=
  ∀ pid q, k.procs pid = some q → ∀ va, has (leafAt k.mm q.root (indices va)) pteV = true →
    has (leafAt k.mm q.root (indices va)) pteU = true →
      ¬(has (leafAt k.mm q.root (indices va)) pteW = true ∧ has (leafAt k.mm q.root (indices va)) pteX = true)

/-- A page that is writable, or will be once it is copied, is not executable. -/
def writeXorExec : Policy where
  leafOk := fun fl => (has fl pteCow = true → has fl pteU = true) ∧
    (has fl pteU = true → has fl pteW = true ∨ has fl pteCow = true → has fl pteX = false)
  priv := False
  strict := False
  kern := fun _ => False
  frozen := fun _ => False
  image := fun _ _ => 0#64
  entries := fun _ => 0#64

section Flags
variable {fl : Word}

theorem xor_shared (m : Bool) (h : writeXorExec.leafOk fl) : writeXorExec.leafOk (sharedFlags m fl) := by
  refine ⟨cow_user_shared m h.1, ?_⟩
  obtain ⟨-, -, hx, hu⟩ := has_sharedFlags m fl
  rw [hx, hu, has_sharedFlags_w, has_sharedFlags_cow]
  refine fun hu' hwc => h.2 hu' ?_
  simp only [Bool.and_eq_true, Bool.or_eq_true] at hwc
  rcases hwc with hw | hc | hw
  · exact .inl hw.1
  · exact .inr hc
  · exact .inl hw.2

/-- The copy of a copy-on-write page is writable; the page was not executable. -/
theorem xor_uncow (h : writeXorExec.leafOk fl) (hc : has fl pteCow = true) :
    has fl pteU = true ∧ writeXorExec.leafOk (uncowFlags fl) := by
  refine ⟨h.1 hc, cow_user_uncow fl, fun _ _ => ?_⟩
  rw [(has_uncowFlags fl).2.2.2.2.1]
  exact h.2 (h.1 hc) (.inr hc)

end Flags

instance (fl : Word) : Decidable (writeXorExec.leafOk fl) := inferInstanceAs (Decidable (_ ∧ _))

theorem writeXorExec_serves : writeXorExec.Serves where
  faults := {
    closed := ⟨fun _ m h => xor_shared m h, fun _ h hc => xor_uncow h hc, .inr fun _ h => h⟩
    data := by decide
    code := by decide }
  shared := fun h => h
  plain := by decide

theorem writeXorExec_boots (n : Nat) : writeXorExec.Boots n where
  rw := by decide
  rx := by decide
  kern := .inr ⟨fun h => h, fun _ h => h⟩
  frozen := fun _ h => h.elim
  entries := fun h => h.elim

/-- The steps that build address spaces, with no protection or segment that asks for both. -/
def Op.Separates : Op → Prop
  | .vmoMap _ _ _ prot => ¬(has (protFlags prot) pteW = true ∧ has (protFlags prot) pteX = true)
  | .load data => SegmentsAre (fun fl => ¬(has fl pteW = true ∧ has fl pteX = true)) data
  | .schedule _ | .setState .. | .spawn _ | .fault .. | .vmoCreate _ | .unmap .. | .mmap .. | .fork _ | .evict => True
  | .close _ | .physMap .. | .exec _ | .exit .. | .reap _ => False

section Separate
variable {k : Kern}

theorem xor_of_plain {fl : Word} (hcow : has fl pteCow = false)
    (h : ¬(has fl pteW = true ∧ has fl pteX = true)) : writeXorExec.leafOk fl := by
  refine ⟨fun hc => ?_, fun _ hwc => ?_⟩
  · rw [hcow] at hc
    cases hc
  · rcases hwc with hw | hc
    · exact Bool.eq_false_iff.mpr fun hx => h ⟨hw, hx⟩
    · rw [hcow] at hc
      cases hc

theorem Op.Separates.allowed {op : Op} (h : op.Separates) : op.Allowed writeXorExec k := by
  have hreach := reach_of_no_kern (p := writeXorExec) (fun h => h) (fun _ h => h)
  cases op with
  | fault cause va => exact hreach va
  | load data =>
    intro ph hph ht hm
    refine ⟨xor_of_plain (segmentFlags_cow _) ?_, fun _ _ => hreach _⟩
    rw [has_or_left, has_or_left]
    exact h ph hph ht hm
  | vmoMap handle vaHint mapSize prot =>
    exact ⟨xor_of_plain (protFlags_cow prot) h, fun _ _ _ _ _ => hreach _⟩
  | unmap fuel va size => exact .inl fun _ h => h
  | close | physMap | exec | exit | reap => exact h.elim
  | _ => exact trivial

/-- The flags of every valid leaf entry of a process satisfy the policy. -/
theorem KInv.leafOk {p : Policy} {held : List Nat} {g : Ghost} (h : KInv p held k g) {pid va : Nat} {q : Process}
    (hq : k.procs pid = some q) (hv : has (leafAt k.mm q.root (indices va)) pteV = true) :
    p.leafOk (pteFlags (leafAt k.mm q.root (indices va))) := by
  cases ht : leafTable k.mm q.root (vpn va 2) (vpn va 1) with
  | none =>
    rw [indices, leafAt, ht, has_zero] at hv
    cases hv
  | some t =>
    rw [indices, leafAt, ht] at hv ⊢
    obtain ⟨up, hrole⟩ := role_of_leafTable h.mm (h.root hq) (vpn_lt va 2) (vpn_lt va 1) ht
    exact h.mm.leaves.ok hrole (vpn_lt va 0) hv

theorem Sound.writeXorExec (h : Sound OpenV.writeXorExec k) : WriteXorExec k := by
  obtain ⟨g, h⟩ := h
  intro pid q hq va hv hu hwx
  obtain ⟨-, hok⟩ := h.leafOk hq hv
  rw [pteFlags_u, pteFlags_w, pteFlags_x] at hok
  rw [hok hu (.inl hwx.1)] at hwx
  cases hwx.2

end Separate

/-- A process maps its memory object for reading and writing. -/
def plainRun : List Op := [.spawn ⟨true, 0⟩, .schedule 1, .vmoCreate 4096, .vmoMap 65536 0 4096 3]

/-- The walks of `clone_level` and `destroy_level` from the table `t` at a level take the frame `f`
for a table. At level 0 an entry that is no leaf is still followed. -/
def ReadAsTable (s : Mm) (f : Nat) : Nat → Nat → Prop
  | 0, t => t = f ∨ ∃ i ∈ cloneRange 0, s.mem t i ≠ 0#64 ∧ isLeaf (s.mem t i) = false ∧ ptePa (s.mem t i) = f
  | level + 1, t => t = f ∨ ∃ i ∈ cloneRange (level + 1), s.mem t i ≠ 0#64 ∧ isLeaf (s.mem t i) = false ∧
      ReadAsTable s f level (ptePa (s.mem t i))

/-- Every valid level-0 entry is a leaf; cloning does not go below level 0; no data page is read as a table. -/
structure WalksSafe (k : Kern) : Prop where
  leaf : ∀ {pid q va}, k.procs pid = some q → has (leafAt k.mm q.root (indices va)) pteV = true →
    isLeaf (leafAt k.mm q.root (indices va)) = true
  clone : ∀ {pid q}, k.procs pid = some q →
    ∀ e, ((newProcessTable >>= cloneUserSpace q.root) k.mm).1 ≠ .panic e
  table : ∀ {pid q pid' q' f}, k.procs pid = some q → k.procs pid' = some q' →
    ReadAsTable k.mm f 2 q.root → ¬Maps k.mm q'.root f

section Walks
variable {p : Policy} {k : Kern} {g : Ghost} {r f : Nat}

/-- Below a table of an address space the walks meet its tables only. -/
theorem role_of_readAsTable (hleaf : ∀ fl, p.leafOk fl → isLeaf fl = true) (h : Inv p k.mm g) :
    ∀ {level path t}, path.length + level = 2 → At g r path t → ReadAsTable k.mm f level t →
      ∃ n up, g.role f = .tab n up
  | 0, path, t, hlen, hat, hread => by
    obtain ⟨n, up, hrole, hn⟩ := hat.level h.tabs
    rcases hread with rfl | ⟨i, hi, h0, hnl, -⟩
    · exact ⟨n, up, hrole⟩
    · have hn0 : n = 0 := by omega
      subst hn0
      have hi := (mem_cloneRange.mp hi).1
      rcases h.leaves.valid hrole hi with e | hv
      · exact absurd e h0
      · have hl := hleaf _ (h.leaves.ok hrole hi hv)
        rw [isLeaf_pteFlags, hnl] at hl
        cases hl
  | level + 1, path, t, hlen, hat, hread => by
    rcases hread with rfl | ⟨i, hi, h0, hnl, hread⟩
    · obtain ⟨n, up, hrole, -⟩ := hat.level h.tabs
      exact ⟨n, up, hrole⟩
    · obtain ⟨hi, h4⟩ := mem_cloneRange.mp hi
      have hlow : path = [] → 4 ≤ i := fun e => h4 (by rw [e, List.length_nil] at hlen; omega)
      obtain ⟨q, hq, hrole⟩ := child_of_slot h hat hlen hi hlow h0
      rw [hq, ptePa_tablePte_of (h.pool.ok (by simp [hrole]))] at hread
      exact role_of_readAsTable hleaf h (by rw [List.length_cons]; omega) (.down hat hrole) hread

/-- A frame that is mapped is no table. -/
theorem KInv.not_maps (h : KInv p [] k g) {pid n : Nat} {q : Process} {up : Option (Nat × Nat)}
    (hq : k.procs pid = some q) (hf : g.role f = .tab n up) : ¬Maps k.mm q.root f := by
  intro hmaps
  have hpos := hmaps.leafRefs_pos h.mm (h.root hq)
  rw [leafRefs_eq_zero h.mm.pool h.mm.leaves (by simp [hf]) (by simp [hf])] at hpos
  exact Nat.lt_irrefl 0 hpos

theorem cloneUserSpace_fresh_wp (hp : p.Closed) (hleaf : ∀ fl, p.leafOk fl → isLeaf fl = true) {s : Mm}
    (h : Inv p s g) (hr : g.role r = .tab 2 none) :
    (newProcessTable >>= cloneUserSpace r).wp (fun _ _ => True) (fun _ => True) (fun _ => False) s := by
  simp only [Cmd.wp_bind]
  refine Cmd.wp_mono (newProcessTable_wp h) (fun root s' hd => ?_) (fun _ _ => trivial)
  obtain ⟨g', h', -, hrole, hfree, hz, hroots⟩ := hd
  have hne : r ≠ root := by
    rintro rfl
    rw [hr] at hfree
    cases hfree
  exact Cmd.wp_mono (cloneUserSpace_wp hp (.inl hleaf) hne h' ((hroots r).mpr (.inl hr)) hrole hz)
    (fun _ _ _ => trivial) (fun _ _ => trivial)

theorem Sound.walksSafe (h : Sound leafShaped k) : WalksSafe k := by
  obtain ⟨g, h⟩ := h
  have hleaf : ∀ fl, leafShaped.leafOk fl → isLeaf fl = true := fun _ h => h.1
  refine ⟨fun {pid q va} hq hv => ?_, fun {pid q} hq => ?_, fun {pid q pid' q' f} hq hq' hread => ?_⟩
  · rw [← isLeaf_pteFlags]
    exact (h.leafOk hq hv).1
  · exact Cmd.no_panic_of_wp (cloneUserSpace_fresh_wp leafShaped_serves.faults.closed hleaf h.mm (h.root hq))
  · obtain ⟨n, up, hrole⟩ := role_of_readAsTable hleaf h.mm rfl (.root (h.root hq)) hread
    exact h.not_maps hq' hrole

end Walks
end OpenV
