import OpenV.Mm.Pmm

/- How the swap stores a page (`compress_page` and `decompress_page` of `src/mm/swap.rs`): as
   pairs of a byte and the length of its run, at most 255.

   A position in a slice is the list of the bytes from it on, so the loops are recursions on that
   list. `expand` says what a list of pairs stands for; the encoder and the decoder are each
   compared with it. -/
namespace OpenV.Swap

open List

/-- A `[u8; 4096]`. -/
abbrev Page := { bytes : List (BitVec 8) // bytes.length = pageSize }

/-- The inner loop of `compress_page`: `run` bytes `b` are counted, `rest` follows them. -/
def countRun (b : BitVec 8) (run : Nat) : List (BitVec 8) → Nat
  | [] => run
  | x :: rest => if x = b ∧ run < 255 then countRun b (run + 1) rest else run

/-- The outer loop of `compress_page`, from some position on. -/
def compressFrom : List (BitVec 8) → List (BitVec 8)
  | [] => []
  | b :: rest =>
    let run := countRun b 1 rest
    b :: BitVec.ofNat 8 run :: compressFrom (rest.drop (run - 1))
termination_by src => src.length
decreasing_by simp only [length_drop, length_cons]; omega

/-- `compress_page`. -/
def compressPage (src : Page) : List (BitVec 8) := compressFrom src.1

/-- `dst[lo..hi].fill(b)`. -/
def fill (dst : List (BitVec 8)) (lo hi : Nat) (b : BitVec 8) : List (BitVec 8) :=
  dst.take lo ++ replicate (hi - lo) b ++ dst.drop hi

/-- The loop of `decompress_page`: `src` from the current pair on. -/
def decompressFrom : List (BitVec 8) → Nat → List (BitVec 8) → List (BitVec 8)
  | b :: run :: src, outPos, dst =>
    if outPos < pageSize then
      let last := min (outPos + run.toNat) pageSize
      decompressFrom src last (fill dst outPos last b)
    else dst
  | _, _, dst => dst

/-- `decompress_page`: what `dst` holds afterwards. -/
def decompressPage (src : List (BitVec 8)) (dst : Page) : List (BitVec 8) := decompressFrom src 0 dst.1

/-- The bytes a list of pairs stands for. -/
def expand : List (BitVec 8) → List (BitVec 8)
  | b :: run :: src => replicate run.toNat b ++ expand src
  | _ => []

theorem countRun_bounds (b : BitVec 8) (rest : List (BitVec 8)) : ∀ run ≤ 255,
    run ≤ countRun b run rest ∧ countRun b run rest ≤ 255 ∧ countRun b run rest ≤ run + rest.length := by
  induction rest with
  | nil => exact fun run h => ⟨le_rfl, h, le_rfl⟩
  | cons x rest ih =>
    intro run h
    rw [countRun, length_cons]
    split
    · have := ih (run + 1) (by omega)
      omega
    · omega

/-- What the inner loop counts is a run of `b`. -/
theorem replicate_countRun (b : BitVec 8) (rest : List (BitVec 8)) : ∀ run ≤ 255,
    replicate (countRun b run rest) b ++ rest.drop (countRun b run rest - run) = replicate run b ++ rest := by
  induction rest with
  | nil => intro run _; simp [countRun]
  | cons x rest ih =>
    intro run h
    rw [countRun]
    split
    · rename_i hx
      have hlt := (countRun_bounds b rest (run + 1) (by omega)).1
      have hdrop : countRun b (run + 1) rest - run = countRun b (run + 1) rest - (run + 1) + 1 := by omega
      rw [hdrop, drop_succ_cons, ih (run + 1) (by omega), hx.1, replicate_succ']
      simp
    · simp

/-- The encoder's output stands for its input. -/
theorem expand_compressFrom (src : List (BitVec 8)) : expand (compressFrom src) = src := by
  induction src using compressFrom.induct with
  | case1 => simp [compressFrom, expand]
  | case2 b rest run ih =>
    obtain ⟨-, hle, -⟩ := countRun_bounds b rest 1 (by omega)
    have hrun : (BitVec.ofNat 8 run).toNat = run := by
      exact Nat.mod_eq_of_lt (by omega)
    rw [compressFrom, expand, ih, hrun, replicate_countRun b rest 1 (by omega)]
    rfl

/-- A run has between 1 and 255 bytes and takes two. -/
theorem length_compressFrom (src : List (BitVec 8)) :
    ∃ n, (compressFrom src).length = 2 * n ∧ n ≤ src.length ∧ src.length ≤ 255 * n := by
  induction src using compressFrom.induct with
  | case1 => exact ⟨0, by simp [compressFrom]⟩
  | case2 b rest run ih =>
    obtain ⟨n, hlen, hle, hge⟩ := ih
    obtain ⟨h1, h255, hrest⟩ := countRun_bounds b rest 1 (by omega)
    rw [length_drop] at hle hge
    refine ⟨n + 1, ?_, ?_, ?_⟩
    · rw [compressFrom, length_cons, length_cons, hlen]
      omega
    · rw [length_cons]
      omega
    · rw [length_cons]
      omega

/-- The decoder writes what the pairs stand for behind what is already written. -/
theorem decompressFrom_eq (src : List (BitVec 8)) : ∀ done old : List (BitVec 8),
    (done ++ old).length = pageSize → (done ++ expand src).length = pageSize →
      decompressFrom src done.length (done ++ old) = done ++ expand src := by
  induction src using expand.induct with
  | case1 b run src ih =>
    intro done old hold hnew
    simp only [expand, length_append, length_replicate] at hold hnew
    rw [decompressFrom, expand]
    split
    · have hlast : min (done.length + run.toNat) pageSize = (done ++ replicate run.toNat b).length := by
        rw [length_append, length_replicate]
        omega
      have hfill : fill (done ++ old) done.length (done ++ replicate run.toNat b).length b =
          (done ++ replicate run.toNat b) ++ old.drop run.toNat := by
        simp [fill]
      rw [hlast]
      dsimp only
      rw [hfill, ih _ (old.drop run.toNat) (by simp; omega) (by simp; omega), append_assoc]
    · -- the page is full: nothing is left to write, and nothing of the old contents is left
      have hr : run.toNat = 0 := by omega
      have he : expand src = [] := length_eq_zero_iff.mp (by omega)
      have ho : old = [] := length_eq_zero_iff.mp (by omega)
      simp [hr, he, ho]
  | case2 src hsrc =>
    intro done old hold hnew
    have he : expand src = [] := by
      rw [expand]
      exact hsrc
    have ho : old = [] := by
      rw [he, append_nil] at hnew
      exact length_eq_zero_iff.mp (by rw [length_append] at hold; omega)
    rw [decompressFrom, he, ho]
    exact hsrc

/-- A page comes back from the swap as it was, and its compressed form has an even length between 34 and 8192. -/
theorem decompress_compress (p dst : Page) : decompressPage (compressPage p) dst = p.1 ∧
    Even (compressPage p).length ∧ 34 ≤ (compressPage p).length ∧ (compressPage p).length ≤ 8192 := by
  have hp : p.1.length = 4096 := p.2
  have hround : expand (compressPage p) = p.1 := expand_compressFrom p.1
  refine ⟨?_, ?_⟩
  · have h := decompressFrom_eq (compressPage p) [] dst.1 dst.2 (by rw [hround]; exact p.2)
    rw [hround] at h
    exact h
  · obtain ⟨n, hlen, hle, hge⟩ := length_compressFrom p.1
    rw [compressPage, hlen]
    refine ⟨even_two_mul n, ?_, ?_⟩ <;> omega

end OpenV.Swap
