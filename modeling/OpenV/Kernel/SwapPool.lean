import OpenV.Kernel.Swap
import OpenV.Lib.Run

/- The accounts of the swap pool (`src/mm/swap.rs`): `SWAP_TOTAL_PAGES` and `SWAP_TOTAL_BYTES`
   are kept beside `SWAP_MAP`, and `swap_in` takes the entry out before it knows that it has a
   frame and can map it. -/
namespace OpenV.SwapPool

open Cmd List

/-- `SWAP_MAP` by root and page, and the two counters. -/
structure Pool where
  map : List ((Nat × Nat) × SwappedPage) := []
  totalPages : BitVec 64 := 0
  totalBytes : BitVec 64 := 0

def compressedSize (map : List ((Nat × Nat) × SwappedPage)) : Nat := (map.map fun e => e.2.data.length).sum

inductive Op where
  /-- `try_evict_page`, with the page that its walk finds: its root and address, its words and flags -/
  | evict (found : Option ((Nat × Nat) × (Nat → Word) × Word))
  /-- `swap_in`: is there a frame, and can it be mapped -/
  | swapIn (key : Nat × Nat) (frame mapped : Bool)
  | evictAll (root : Nat)

def Op.exec : Op → Cmd Pool Unit
  | .evict none => pure ()
  | .evict (some (key, words, flags)) =>
    let page : SwappedPage := ⟨compressPage (pageBytes words), flags⟩
    modify fun p =>
      { map := (key, page) :: p.map.filter (·.1 != key)
        totalPages := p.totalPages + 1
        totalBytes := p.totalBytes + BitVec.ofNat 64 page.data.length }
  | .swapIn key frame mapped => do
    let p ← get
    match p.map.lookup key with
    | none => fail "swap entry not found"
    | some page =>
      modify fun p => { p with map := p.map.filter (·.1 != key) }
      require (frame = true) "OOM during swap-in"
      require (mapped = true) "map_page"
      modify fun p => { p with
        totalPages := p.totalPages - 1, totalBytes := p.totalBytes - BitVec.ofNat 64 page.data.length }
  | .evictAll root => modify fun p =>
    let gone := p.map.filter (·.1.1 == root)
    { map := p.map.filter (·.1.1 != root)
      totalPages := p.totalPages - BitVec.ofNat 64 gone.length
      totalBytes := p.totalBytes - BitVec.ofNat 64 (compressedSize gone) }

def Balanced (p : Pool) : Prop :=
  p.totalPages = BitVec.ofNat 64 p.map.length ∧ p.totalBytes = BitVec.ofNat 64 (compressedSize p.map)

/-- A swap-in that fails leaves the entry. -/
def Op.KeepsEntry (p p' : Pool) : Op → Prop
  | .swapIn key frame mapped => (frame && mapped) = false → p'.map.lookup key = p.map.lookup key
  | _ => True

/-- No page is evicted that has an entry, and no swap-in fails that has found one. -/
def Op.Clean (p : Pool) : Op → Prop
  | .evict (some (key, _)) => p.map.lookup key = none
  | .swapIn key frame mapped => p.map.lookup key = none ∨ (frame && mapped) = true
  | _ => True

section Steps
variable {p : Pool} {key : Nat × Nat}

/-- The entries have different keys. -/
def Pool.Keyed (p : Pool) : Prop := (p.map.map Prod.fst).Nodup

theorem Pool.Keyed.filter (h : p.Keyed) (f : (Nat × Nat) × SwappedPage → Bool) : ((p.map.filter f).map Prod.fst).Nodup :=
  h.sublist (filter_sublist.map _)

theorem filter_of_lookup_none (h : p.map.lookup key = none) : p.map.filter (·.1 != key) = p.map :=
  filter_eq_self.mpr fun e he => by simpa [bne_comm] using lookup_eq_none_iff.mp h e he

theorem perm_of_lookup (hp : p.Keyed) {page : SwappedPage} (h : p.map.lookup key = some page) :
    p.map.Perm ((key, page) :: p.map.filter (·.1 != key)) := by
  obtain ⟨l, r, e, hl⟩ := lookup_eq_some_iff.mp h
  unfold Pool.Keyed at hp
  rw [e, map_append, map_cons, nodup_middle, nodup_cons, ← map_append] at hp
  have hself : (l ++ r).filter (·.1 != key) = l ++ r := filter_eq_self.mpr fun x hx =>
    bne_iff_ne.mpr fun e => hp.1 (mem_map.mpr ⟨x, hx, e⟩)
  rw [filter_append] at hself
  rw [e, filter_append, filter_cons_of_neg (by simp), hself]
  exact perm_middle

/-- Entries are taken out, and with them what they count for. -/
theorem Balanced.take (h : Balanced p) {g rest : List ((Nat × Nat) × SwappedPage)} (hp : p.map.Perm (g ++ rest)) :
    Balanced ⟨rest, p.totalPages - BitVec.ofNat 64 g.length, p.totalBytes - BitVec.ofNat 64 (compressedSize g)⟩ := by
  have hlen := hp.length_eq
  have hsize : compressedSize p.map = compressedSize g + compressedSize rest := by
    rw [compressedSize, (hp.map _).sum_eq, map_append, sum_append]
    rfl
  rw [length_append] at hlen
  exact ⟨by simp only [h.1]; bv_omega, by simp only [h.2]; bv_omega⟩

theorem Balanced.put (h : Balanced p) (key : Nat × Nat) (page : SwappedPage) :
    Balanced ⟨(key, page) :: p.map, p.totalPages + 1, p.totalBytes + BitVec.ofNat 64 page.data.length⟩ := by
  refine ⟨?_, ?_⟩
  · simp [h.1, BitVec.ofNat_add]
  · simp [h.2, compressedSize, BitVec.ofNat_add, BitVec.add_comm]

/-- `Clean` is what a step needs. -/
theorem step_balanced (op : Op) (h : Balanced p ∧ p.Keyed) :
    op.exec.endsIn (fun p' => (op.Clean p ↔ Balanced p' ∧ op.KeepsEntry p p') ∧ p'.Keyed) p := by
  obtain ⟨hb, hk⟩ := h
  cases op with
  | evict found =>
    cases found with
    | none => exact (wp_pure _).mpr ⟨iff_of_true trivial ⟨hb, trivial⟩, hk⟩
    | some found =>
      obtain ⟨key, words, flags⟩ := found
      refine (wp_modify _).mpr ⟨⟨fun hc => ⟨?_, trivial⟩, fun hp => ?_⟩, nodup_cons.mpr ⟨by simp, hk.filter _⟩⟩
      · rw [filter_of_lookup_none hc]
        exact hb.put key _
      · cases he : p.map.lookup key with
        | none => exact he
        | some page =>
          -- one more on the counter, but not in the map
          have h1 : p.totalPages + 1 = _ := hp.1.1
          rw [hb.1, (perm_of_lookup hk he).length_eq, length_cons, length_cons] at h1
          bv_omega
  | swapIn key frame mapped =>
    simp only [Op.exec, require, wp_bind, wp_get]
    cases he : p.map.lookup key with
    | none => exact (wp_fail _).mpr ⟨iff_of_true (.inl he) ⟨hb, fun _ => rfl⟩, hk⟩
    | some page =>
      simp only [wp_bind, wp_modify, wp_ite, wp_pure, wp_fail]
      have hgone : (p.map.filter (·.1 != key)).lookup key = none :=
        lookup_eq_none_iff.mpr fun x hx => by simpa [bne_comm] using (mem_filter.mp hx).2
      have hfail : (frame && mapped) = false → ¬(Op.swapIn key frame mapped).Clean p := fun hf hc => by
        simp [Op.Clean, he, hf] at hc
      have hlost : ∀ {p' : Pool}, p'.map = p.map.filter (·.1 != key) → (frame && mapped) = false →
          ¬(Op.swapIn key frame mapped).KeepsEntry p p' := fun e hf h => by simpa [e, hgone, he] using h hf
      refine ⟨fun hf => ⟨fun hm => ⟨iff_of_true (.inr (by simp [hf, hm])) ⟨?_, fun h => by simp [hf, hm] at h⟩, hk.filter _⟩,
        fun hm => ⟨iff_of_false (hfail (by simp [hm])) fun h => hlost rfl (by simp [hm]) h.2, hk.filter _⟩⟩,
        fun hf => ⟨iff_of_false (hfail (by simp [hf])) fun h => hlost rfl (by simp [hf]) h.2, hk.filter _⟩⟩
      have hout := hb.take (g := [(key, page)]) (perm_of_lookup hk he)
      simpa [compressedSize] using hout
  | evictAll root =>
    refine (wp_modify _).mpr ⟨iff_of_true trivial ⟨?_, trivial⟩, hk.filter _⟩
    exact hb.take (filter_append_perm (fun e => e.1.1 == root) p.map).symm

end Steps

/-- The accounts agree with the map, and failed swap-ins lose nothing, in exactly the clean runs. -/
theorem swap_accounts_iff (ops : List Op) : Along Op.exec (fun op p _ => op.Clean p) ops {} ↔
    Along Op.exec (fun op p p' => Balanced p' ∧ op.KeepsEntry p p') ops {} := by
  refine along_iff_rel (I := fun p => Balanced p ∧ p.Keyed) (fun op p h => ?_) ⟨⟨rfl, rfl⟩, nodup_nil⟩
  exact endsIn_mono (step_balanced op h) fun _ h => ⟨h.1, fun hp => ⟨hp.1, h.2⟩⟩

/-- There is no frame for the page: its entry is lost, and stays on the counter. -/
theorem swap_entry_lost : ∃ p, runAll Op.exec [.evict (some ((0x80400000, 0x100000000), fun _ => 0, 0xDF)),
      .swapIn (0x80400000, 0x100000000) false false] {} = some p ∧ p.map = [] ∧ p.totalPages = 1 :=
  ⟨_, rfl, by decide, by decide⟩

end OpenV.SwapPool
