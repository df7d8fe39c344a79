import OpenV.Mm.Pmm

/- The memory of the kernel heap (`src/mm/heap.rs`): up to 8192 pages, handed to
   the allocator one run of adjacent pages at a time. Pages lie in RAM, so that no
   sum of addresses overflows. -/
namespace OpenV

/-- What the loop of `init` carries, with the ranges passed to `add_to_heap`. -/
structure Heap where
  n : Nat := 0
  prevPa : Option Nat := none
  segStart : Nat := 0
  totalAdded : Nat := 0
  added : List (Nat × Nat) := []

namespace Heap

/-- The segment that ends with the page `prev` goes to the allocator. -/
def addToHeap (prev : Nat) (h : Heap) : Heap :=
  { h with
    added := h.added ++ [(h.segStart, prev + pageSize)]
    totalAdded := h.totalAdded + ((prev - h.segStart) + pageSize) }

def take (h : Heap) (pa : Nat) : Heap :=
  let h := match h.prevPa with
    | none => { h with segStart := pa }
    | some prev => if prev + pageSize ≠ pa then { h.addToHeap prev with segStart := pa } else h
  { h with prevPa := some pa, n := h.n + 1 }

/-- One call of `alloc_page`. -/
def call (h : Heap) : Option Nat → Heap
  | some pa => h.take pa
  | none => h

def flush (h : Heap) : Heap :=
  match h.prevPa with
  | none => h
  | some prev => h.addToHeap prev

/-- `init`, where the `i`-th call of `alloc_page` returns `allocPage i`. -/
def init (allocPage : Nat → Option Nat) : Heap :=
  ((List.range 8192).foldl (fun h i => h.call (allocPage i)) ({} : Heap)).flush

/-- The pages obtained, in order. -/
def obtained (allocPage : Nat → Option Nat) : List Nat := (List.range 8192).filterMap allocPage

/-- The pages of a segment, given by its start and their number. -/
def pages (g : Nat × Nat) : List Nat := List.range' g.1 g.2 pageSize

def bytes (g : Nat × Nat) : Nat × Nat := (g.1, g.1 + pageSize * g.2)

/-- The segments added so far and the open one are the pages taken, in order. -/
def Covers (h : Heap) (ps : List Nat) : Prop :=
  ∃ segs : List (Nat × Nat), h.added = segs.map bytes ∧ match h.prevPa with
    | none => segs.flatMap pages = ps
    | some prev => ∃ k, prev = h.segStart + pageSize * k ∧ segs.flatMap pages ++ pages (h.segStart, k + 1) = ps

variable {h : Heap} {ps : List Nat}

theorem covers_take (hc : h.Covers ps) (pa : Nat) : (h.take pa).Covers (ps ++ [pa]) := by
  obtain ⟨segs, ha, hp⟩ := hc
  unfold take
  cases hprev : h.prevPa with
  | none =>
    rw [hprev] at hp
    exact ⟨segs, ha, 0, rfl, by rw [hp]; rfl⟩
  | some prev =>
    rw [hprev] at hp
    obtain ⟨k, rfl, rfl⟩ := hp
    dsimp only
    split_ifs with hgap
    · -- the open segment is closed, and a new one starts
      refine ⟨segs ++ [(h.segStart, k + 1)], ?_, 0, rfl, ?_⟩
      · simp [addToHeap, ha, bytes, Nat.mul_succ, Nat.add_assoc]
      · simp [pages]
    · refine ⟨segs, ha, k + 1, ?_, ?_⟩
      · rw [Nat.mul_succ, ← Nat.add_assoc]
        exact (not_not.mp hgap).symm
      · rw [← not_not.mp hgap, pages, List.range'_concat, List.append_assoc, Nat.mul_succ, ← Nat.add_assoc]
        rfl

theorem covers_loop (allocPage : Nat → Option Nat) (is : List Nat) (hc : h.Covers ps) :
    (is.foldl (fun h i => h.call (allocPage i)) h).Covers (ps ++ is.filterMap allocPage) := by
  induction is generalizing h ps with
  | nil => simpa using hc
  | cons i is ih =>
    cases hi : allocPage i with
    | none => simpa [hi, call] using ih hc
    | some pa => simpa [hi, call] using ih (covers_take hc pa)

theorem covers_flush (hc : h.Covers ps) :
    ∃ segs : List (Nat × Nat), h.flush.added = segs.map bytes ∧ segs.flatMap pages = ps := by
  obtain ⟨segs, ha, hp⟩ := hc
  unfold flush
  split at hp
  · exact ⟨segs, ha, hp⟩
  · obtain ⟨k, rfl, rfl⟩ := hp
    exact ⟨segs ++ [(h.segStart, k + 1)], by simp [addToHeap, ha, bytes, Nat.mul_succ, Nat.add_assoc], by simp⟩

theorem mem_bytes {g : Nat × Nat} {x : Nat} :
    x ∈ Set.Ico (bytes g).1 (bytes g).2 ↔ ∃ p ∈ pages g, x ∈ Set.Ico p (p + pageSize) := by
  simp only [pages, bytes, List.mem_range', Set.mem_Ico, pageSize]
  constructor
  · rintro ⟨h1, h2⟩
    exact ⟨_, ⟨(x - g.1) / 4096, by omega, rfl⟩, by omega, by omega⟩
  · rintro ⟨p, ⟨i, hi, rfl⟩, h1, h2⟩
    omega

/-- What `init` hands to the allocator is the pages it obtained, each once, whatever
their order and however many there were. -/
theorem init_exact (allocPage : Nat → Option Nat) (hpage : ∀ pa ∈ obtained allocPage, pageSize ∣ pa)
    (hdistinct : (obtained allocPage).Nodup) :
    (init allocPage).added.Pairwise (fun r q => Disjoint (Set.Ico r.1 r.2) (Set.Ico q.1 q.2)) ∧
      ⋃ r ∈ (init allocPage).added, Set.Ico r.1 r.2 =
        ⋃ pa ∈ obtained allocPage, Set.Ico pa (pa + pageSize) := by
  have hstart : Covers {} [] := ⟨[], rfl, rfl⟩
  obtain ⟨segs, ha, hp⟩ := covers_flush (covers_loop allocPage (List.range 8192) hstart)
  rw [List.nil_append, ← obtained] at hp
  rw [init, ha, ← hp]
  rw [← hp] at hpage hdistinct
  constructor
  · rw [List.pairwise_map]
    refine (List.nodup_flatMap.mp hdistinct).2.imp_of_mem fun hr hq hdis => Set.disjoint_left.mpr ?_
    intro x hx hx'
    obtain ⟨p, hp, h1, h2⟩ := mem_bytes.mp hx
    obtain ⟨p', hp', h1', h2'⟩ := mem_bytes.mp hx'
    have hd := hpage p (List.mem_flatMap.mpr ⟨_, hr, hp⟩)
    have hd' := hpage p' (List.mem_flatMap.mpr ⟨_, hq, hp'⟩)
    -- two pages that share a byte are one
    have heq : p = p' := by
      simp only [pageSize] at *
      omega
    exact hdis hp (heq ▸ hp')
  · ext x
    simp only [List.mem_map, Set.iUnion_exists, Set.biUnion_and', Set.iUnion_iUnion_eq_right, Set.mem_iUnion,
      mem_bytes, List.mem_flatMap, exists_prop]

/-- Every second page is obtained. -/
theorem init_gaps :
    let allocPage := fun i => some (pageSize * (2 * i))
    (init allocPage).added.Pairwise fun r q => Disjoint (Set.Ico r.1 r.2) (Set.Ico q.1 q.2) := by
  refine (init_exact _ ?_ ?_).1
  · intro pa hpa
    obtain ⟨i, -, hi⟩ := List.mem_filterMap.mp hpa
    exact ⟨_, (Option.some.inj hi).symm⟩
  · unfold obtained
    refine List.nodup_range.filterMap ?_
    rintro i j - ⟨⟩ h
    simpa [pageSize, eq_comm] using h

end Heap

end OpenV
