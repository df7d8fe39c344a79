import OpenV.Lib.Count
import OpenV.Lib.Linked
import OpenV.Mm.Vmm

/- What the memory state means: the role every frame plays, and the invariant
   that ties the roles to the words in memory, the reference counts and the
   free list.

   A frame of the pool is free, a page (its content is data), or a page table
   of some level. A table of level 1 or 0 knows the one slot that points to it,
   its `up` link, so that the tables below the roots form disjoint trees; the
   kernel's level-1 tables have none, since every root points to them. `ext`
   counts the references to a page that are held outside the page tables (frame
   guards, memory objects).

   The invariant is split by what it reads: `PoolOk` the free list, `TabOk` the
   words of tables that point to tables, `LeafOk` the words of level-0 tables,
   `CountOk` the reference counts. A step that leaves the words one part reads
   alone keeps that part by its `frame` lemma. -/
namespace OpenV

inductive Role where
  | other
  | free
  | page
  | tab (level : Nat) (up : Option (Nat × Nat))
  deriving DecidableEq

structure Ghost where
  pool : Finset Nat
  role : Nat → Role
  ext : Nat → Nat
  free : List Nat

/-- What a development wants of the page tables beyond their shape. -/
structure Policy where
  /-- what the flags of every leaf satisfy -/
  leafOk : Word → Prop
  /-- a writable user page has one mapping -/
  priv : Prop
  /-- nothing of a process hangs below the kernel's root entries -/
  strict : Prop
  /-- the kernel's tables, and those among them whose words never change -/
  kern : Nat → Prop
  frozen : Nat → Prop
  image : Mem
  /-- the kernel's root entries -/
  entries : Nat → Word

/-- A frame the allocator can hand out. -/
structure FrameOk (s : Mm) (f : Nat) : Prop where
  aligned : f % 4096 = 0
  ne_zero : f ≠ 0
  lo : s.ramStart ≤ f
  hi : f < s.ramStart + maxPages * pageSize
  word : f < 2 ^ 64

structure PoolOk (s : Mm) (g : Ghost) : Prop where
  frame : ∀ f ∈ g.pool, FrameOk s f
  pool : ∀ f, f ∈ g.pool ↔ g.role f ≠ .other
  linked : Linked (fun f => (s.mem f 0).toNat) s.head g.free
  nodup : g.free.Nodup
  mem_free : ∀ f, f ∈ g.free ↔ g.role f = .free
  poison : ∀ f ∈ g.free, byteOf (s.mem f 1) 0 = poisonByte

/-- A kernel megapage. -/
def Mega (e : Word) : Prop := has e pteV = true ∧ isLeaf e = true ∧ has e pteU = false

/-- The words a table above level 0 may hold. -/
inductive SlotOk (s : Mm) (g : Ghost) (t k : Nat) (up : Option (Nat × Nat)) (i : Nat) : Prop where
  | empty (h : s.mem t i = 0#64)
  | child (q : Nat) (h : s.mem t i = tablePte q) (hq : g.role q = .tab k (some (t, i)))
  | kernel (hk : k = 1) (hi : i < 4) (h0 : s.kernelRoot i ≠ 0#64) (h : s.mem t i = s.kernelRoot i)
  | mega (hk : k = 0) (hu : up = none) (h : Mega (s.mem t i))

structure TabOk (p : Policy) (s : Mm) (g : Ghost) : Prop where
  level : ∀ {t k up}, g.role t = .tab k up → k ≤ 2 ∧ (k = 2 → up = none) ∧ (k = 0 → up ≠ none)
  slot : ∀ {t k up i}, g.role t = .tab (k + 1) up → i < 512 → SlotOk s g t k up i
  low : ∀ {t up i}, g.role t = .tab 2 up → i < 4 → (p.strict ∨ s.kernelRoot i ≠ 0#64) →
    s.mem t i = s.kernelRoot i
  up : ∀ {q k t i}, g.role q = .tab k (some (t, i)) → (∃ up, g.role t = .tab (k + 1) up) ∧
    i < 512 ∧ s.mem t i = tablePte q ∧ (k = 1 → 4 ≤ i ∨ ¬p.strict ∧ s.kernelRoot i = 0#64)
  root : ∀ {i}, i < 4 → s.kernelRoot i ≠ 0#64 →
    ∃ q, s.kernelRoot i = tablePte q ∧ g.role q = .tab 1 none
  kern : ∀ {t}, p.kern t → g.role t = .tab 1 none ∨ ∃ q j, g.role t = .tab 0 (some (q, j)) ∧ p.kern q
  kern_one : p.strict → ∀ {t}, g.role t = .tab 1 none → p.kern t
  kern_zero : p.strict → ∀ {t q j}, g.role t = .tab 0 (some (q, j)) → p.kern q → p.kern t
  frozen : ∀ {t}, p.frozen t → p.kern t ∧ ∀ i, s.mem t i = p.image t i
  entries : p.strict → s.kernelRoot = p.entries

structure LeafOk (p : Policy) (s : Mm) (g : Ghost) : Prop where
  valid : ∀ {t up i}, g.role t = .tab 0 up → i < 512 → s.mem t i = 0#64 ∨ has (s.mem t i) pteV = true
  ok : ∀ {t up i}, g.role t = .tab 0 up → i < 512 → has (s.mem t i) pteV = true →
    p.leafOk (pteFlags (s.mem t i))
  user : ∀ {t up i}, g.role t = .tab 0 up → i < 512 → has (s.mem t i) pteV = true →
    has (s.mem t i) pteU = true →
      g.role (ptePa (s.mem t i)) = .page ∨ s.isManagedPage (ptePa (s.mem t i)) = false
  kern : p.strict → ∀ {t up i}, p.kern t → g.role t = .tab 0 up → i < 512 →
    has (s.mem t i) pteV = true → has (s.mem t i) pteU = false

/-- `e` is a user leaf that maps `f`. -/
def leafTo (e : Word) (f : Nat) : Bool := has e pteV && has e pteU && ptePa e == f

def Role.isLeafTable : Role → Bool
  | .tab 0 _ => true
  | _ => false

/-- How many user leaf entries map `f`. -/
def leafRefs (s : Mm) (g : Ghost) (f : Nat) : Nat :=
  countWhere (g.pool ×ˢ Finset.range 512) fun x =>
    (g.role x.1).isLeafTable && leafTo (s.mem x.1 x.2) f

structure CountOk (p : Policy) (s : Mm) (g : Ghost) : Prop where
  free : ∀ {f}, g.role f = .free → s.refs f = 0
  tab : ∀ {f k up}, g.role f = .tab k up → s.refs f = 1
  page : ∀ {f}, g.role f = .page →
    s.refs f = min (g.ext f + leafRefs s g f) 65535 ∧ 0 < g.ext f + leafRefs s g f
  ext : ∀ {f}, g.role f ≠ .page → g.ext f = 0
  priv : p.priv → ∀ {t up i}, g.role t = .tab 0 up → i < 512 → has (s.mem t i) pteV = true →
    has (s.mem t i) pteU = true → has (s.mem t i) pteW = true →
    g.role (ptePa (s.mem t i)) = .page →
      g.ext (ptePa (s.mem t i)) + leafRefs s g (ptePa (s.mem t i)) = 1

/-- The layout invariant. -/
structure Inv (p : Policy) (s : Mm) (g : Ghost) : Prop where
  pool : PoolOk s g
  tabs : TabOk p s g
  leaves : LeafOk p s g
  count : CountOk p s g

/-! ## Reading the memory state -/

section Basic
variable {s : Mm} {g : Ghost} {p : Policy} {f t i : Nat}

theorem FrameOk.index_lt (h : FrameOk s f) : s.pageIndex f < maxPages := by
  have h1 := h.lo
  have h2 := h.hi
  simp only [maxPages, pageSize] at h2
  have hlt : ¬ f < s.ramStart := by omega
  have hi : (f - s.ramStart) / 4096 < 524288 := by omega
  simp only [Mm.pageIndex, maxPages, pageSize, hlt, if_false, hi, if_true]

theorem FrameOk.managed (h : FrameOk s f) : s.isManagedPage f = true := by
  simp [Mm.isManagedPage, h.lo, h.hi]

/-- Distinct frames have distinct slots in the count table. -/
theorem FrameOk.index_inj {f' : Nat} (h : FrameOk s f) (h' : FrameOk s f')
    (e : s.pageIndex f = s.pageIndex f') : f = f' := by
  have h1 := h.lo; have h2 := h.hi; have h3 := h.aligned
  have h1' := h'.lo; have h2' := h'.hi; have h3' := h'.aligned
  simp only [maxPages, pageSize] at h2 h2'
  have a : ¬ f < s.ramStart := by omega
  have b : ¬ f' < s.ramStart := by omega
  have c : (f - s.ramStart) / 4096 < 524288 := by omega
  have d : (f' - s.ramStart) / 4096 < 524288 := by omega
  simp only [Mm.pageIndex, maxPages, pageSize, a, b, c, d, if_false, if_true] at e
  omega

theorem PoolOk.ok (h : PoolOk s g) (hr : g.role f ≠ .other) : FrameOk s f :=
  h.frame f ((h.pool f).mpr hr)

theorem ptePa_tablePte_of (h : FrameOk s f) : ptePa (tablePte f) = f :=
  ptePa_tablePte h.aligned h.word

theorem leafTo_iff {e : Word} : leafTo e f = true ↔ has e pteV = true ∧ has e pteU = true ∧ ptePa e = f := by
  simp [leafTo, and_assoc]

theorem Role.isLeafTable_iff {r : Role} : r.isLeafTable = true ↔ ∃ up, r = .tab 0 up := by
  cases r with
  | tab k up => cases k <;> simp [Role.isLeafTable]
  | _ => simp [Role.isLeafTable]

/-- A slot of a leaf table that maps `f` makes its count positive. -/
theorem leafRefs_pos (hp : PoolOk s g) :
    0 < leafRefs s g f ↔ ∃ t up i, g.role t = .tab 0 up ∧ i < 512 ∧ leafTo (s.mem t i) f = true := by
  rw [leafRefs, countWhere_pos]
  refine ⟨fun h => ?_, fun h => ?_⟩
  · obtain ⟨⟨t, i⟩, hm, hx⟩ := h
    rw [Bool.and_eq_true, Role.isLeafTable_iff] at hx
    obtain ⟨⟨up, hr⟩, hl⟩ := hx
    exact ⟨t, up, i, hr, Finset.mem_range.mp (Finset.mem_product.mp hm).2, hl⟩
  · obtain ⟨t, up, i, hr, hi, hl⟩ := h
    refine ⟨(t, i), Finset.mem_product.mpr ⟨(hp.pool t).mpr ?_, Finset.mem_range.mpr hi⟩, ?_⟩
    · rw [hr]; exact Role.noConfusion
    · rw [Bool.and_eq_true, Role.isLeafTable_iff]
      exact ⟨⟨up, hr⟩, hl⟩

/-- Only pages and unmanaged frames are mapped. -/
theorem leafRefs_eq_zero (hp : PoolOk s g) (hl : LeafOk p s g) (h0 : g.role f ≠ .other)
    (h1 : g.role f ≠ .page) : leafRefs s g f = 0 := by
  by_contra hne
  obtain ⟨t, up, i, hr, hi, hx⟩ := (leafRefs_pos hp).mp (Nat.pos_of_ne_zero hne)
  obtain ⟨hv, hu, rfl⟩ := leafTo_iff.mp hx
  rcases hl.user hr hi hv hu with h | h
  · exact h1 h
  · rw [(hp.ok h0).managed] at h
    exact Bool.noConfusion h

end Basic

end OpenV
