import OpenV.Mm.Pte

/- The interpreter of trace programs (`vm_run` of `src/trace.rs`).

   An instruction is a 64-bit word; `opcodes` is the table of the operations the interpreter knows,
   any other byte is skipped. `round` is one round of the loop, and `vmRun` iterates it: the
   state after `n` rounds, with the value returned once the loop has ended. What a round may read
   of the machine (the process, the clock, a word of memory) is a parameter per round. Memory accesses are
   logged in the state. -/
namespace OpenV.Trace

inductive Alu where
  | mov | add | sub | or | and | xor | lsh | rsh
  deriving DecidableEq

inductive Cond where
  | eq | ne | gt | ge | lt | le
  deriving DecidableEq

inductive Op where
  | aluImm (f : Alu)
  | aluReg (f : Alu)
  | ldxDw
  | stxDw
  | ja
  | jmpImm (c : Cond)
  | jmpReg (c : Cond)
  | call
  | exit
  | unknown
  deriving DecidableEq

def opcodes : List (Nat × Op) :=
  [(0xb7, .aluImm .mov), (0x07, .aluImm .add), (0x47, .aluImm .or), (0x57, .aluImm .and), (0xa7, .aluImm .xor),
   (0x67, .aluImm .lsh), (0x77, .aluImm .rsh), (0xbf, .aluReg .mov), (0x0f, .aluReg .add), (0x1f, .aluReg .sub),
   (0x5f, .aluReg .and), (0x4f, .aluReg .or), (0xaf, .aluReg .xor), (0x79, .ldxDw), (0x7b, .stxDw), (0x05, .ja),
   (0x15, .jmpImm .eq), (0x55, .jmpImm .ne), (0x25, .jmpImm .gt), (0x35, .jmpImm .ge), (0xa5, .jmpImm .lt),
   (0xb5, .jmpImm .le), (0x1d, .jmpReg .eq), (0x5d, .jmpReg .ne), (0x2d, .jmpReg .gt), (0x3d, .jmpReg .ge),
   (0x85, .call), (0x95, .exit)]

/-- `R[dst] op= x`; shift amounts are masked. -/
def Alu.eval (dst x : Word) : Alu → Word
  | mov => x
  | add => dst + x
  | sub => dst - x
  | or => dst ||| x
  | and => dst &&& x
  | xor => dst ^^^ x
  | lsh => dst <<< (x.toNat % 64)
  | rsh => dst >>> (x.toNat % 64)

/-- The comparisons are unsigned. -/
def Cond.holds (x y : Word) : Cond → Bool
  | eq => x == y
  | ne => x != y
  | gt => decide (y < x)
  | ge => decide (y ≤ x)
  | lt => decide (x < y)
  | le => decide (x ≤ y)

structure Insn where
  op : Op
  dr : Nat
  sr : Nat
  off : Int
  imm : Int

/-- The fields of an instruction word; register numbers above 9 mean register 9. -/
def decode (insn : Word) : Insn where
  op := (opcodes.lookup (insn &&& 0xFF).toNat).getD .unknown
  dr := min ((insn >>> 8) &&& 0xF).toNat 9
  sr := min ((insn >>> 12) &&& 0xF).toNat 9
  off := ((insn >>> 16).setWidth 16).toInt
  imm := ((insn >>> 32).setWidth 32).toInt

/-- Where the `TraceCtx` of a run lies: eight words that do not wrap around. -/
structure Ctx where
  addr : Word
  fits : addr.toNat + 64 ≤ 2 ^ 64

/-- What a round finds outside the program. -/
structure World where
  pid : Word
  time : Word
  read : Word → Word

inductive Access where
  | load (addr : Word)
  | store (addr : Word)

structure Vm where
  r : Nat → Word
  pc : Int
  log : List Access
  /-- the value `vm_run` has returned -/
  ret : Option Word

def maxInsns : Nat := 512

/-- The instruction at `pc`, if the loop goes on. -/
def fetch (prog : List Word) (pc : Int) : Option Word :=
  if 0 ≤ pc ∧ pc < min prog.length maxInsns then prog[pc.toNat]? else none

def Insn.imm64 (i : Insn) : Word := BitVec.ofInt 64 i.imm

def Vm.set (m : Vm) (k : Nat) (v : Word) : Vm := { m with r := Function.update m.r k v }

def Vm.next (m : Vm) : Vm := { m with pc := m.pc + 1 }

def Vm.done (m : Vm) : Vm := { m with ret := some (m.r 0) }

/-- The address a load reads from. -/
def loadAddr (i : Insn) (m : Vm) : Word := m.r i.sr + BitVec.ofInt 64 i.off

/-- The check before a load; both sums wrap around. -/
def mayLoad (ctx : Ctx) (addr : Word) : Bool := decide (ctx.addr ≤ addr) && decide (addr + 8#64 ≤ ctx.addr + 64#64)

/-- Whether the instruction jumps. -/
def jumps (i : Insn) (m : Vm) : Bool :=
  match i.op with
  | .ja => true
  | .jmpImm c => c.holds (m.r i.dr) i.imm64
  | .jmpReg c => c.holds (m.r i.dr) (m.r i.sr)
  | _ => false

/-- The body of the loop. -/
def exec (ctx : Ctx) (w : World) (i : Insn) (m : Vm) : Vm :=
  if jumps i m then { m with pc := m.pc + (i.off + 1) }
  else
    match i.op with
    | .aluImm f => (m.set i.dr (f.eval (m.r i.dr) i.imm64)).next
    | .aluReg f => (m.set i.dr (f.eval (m.r i.dr) (m.r i.sr))).next
    | .ldxDw =>
      let addr := loadAddr i m
      if mayLoad ctx addr then { (m.set i.dr (w.read addr)).next with log := .load addr :: m.log } else m.next
    | .call => (m.set 0 (if i.imm = 1 then w.pid else if i.imm = 2 then w.time else 0)).next
    | .exit => m.done
    | _ => m.next

/-- One round of the loop of `vm_run`. -/
def round (prog : List Word) (ctx : Ctx) (w : World) (m : Vm) : Vm :=
  if m.ret.isSome then m
  else
    match fetch prog m.pc with
    | some insn => exec ctx w (decode insn) m
    | none => m.done

/-- `vm_run` after `n` rounds. -/
def vmRun (prog : List Word) (ctx : Ctx) (world : Nat → World) : Nat → Vm
  | 0 => { r := Function.update (fun _ => 0) 1 ctx.addr, pc := 0, log := [], ret := none }
  | n + 1 => round prog ctx (world n) (vmRun prog ctx world n)

/-- The run is at the instruction `i`. -/
def Executes (prog : List Word) (m : Vm) (i : Insn) : Prop :=
  m.ret = none ∧ ∃ insn, fetch prog m.pc = some insn ∧ decode insn = i

/-- The run takes a jump to an instruction at or before this one. -/
def JumpsBack (prog : List Word) (m : Vm) : Prop :=
  ∃ i, Executes prog m i ∧ jumps i m = true ∧ i.off + 1 ≤ 0 ∧ 0 ≤ m.pc + (i.off + 1)

section Runs
variable {prog : List Word} {ctx : Ctx} {world : Nat → World} {w : World} {m : Vm} {i : Insn}

/-- What a round does: nothing, the return, or the body of the loop. -/
theorem round_cases (prog : List Word) (ctx : Ctx) (w : World) (m : Vm) : (m.ret ≠ none ∧ round prog ctx w m = m) ∨
    (m.ret = none ∧ fetch prog m.pc = none ∧ round prog ctx w m = m.done) ∨
      ∃ i, Executes prog m i ∧ round prog ctx w m = exec ctx w i m := by
  unfold round
  split
  · rename_i h
    exact .inl ⟨Option.isSome_iff_ne_none.mp h, rfl⟩
  · rename_i h
    have hret : m.ret = none := Option.not_isSome_iff_eq_none.mp h
    cases hf : fetch prog m.pc with
    | none => exact .inr (.inl ⟨hret, rfl, rfl⟩)
    | some insn => exact .inr (.inr ⟨decode insn, ⟨hret, insn, hf, rfl⟩, rfl⟩)

theorem round_of_executes (h : Executes prog m i) : round prog ctx w m = exec ctx w i m := by
  obtain ⟨hret, insn, hf, rfl⟩ := h
  simp only [round, hret, hf, Option.isSome_none, Bool.false_eq_true, if_false]

/-- Where the body of the loop goes, unless it returns. -/
theorem exec_pc (ctx : Ctx) (w : World) (i : Insn) (m : Vm) :
    (exec ctx w i m).ret ≠ none ∨ (exec ctx w i m).pc = if jumps i m then m.pc + (i.off + 1) else m.pc + 1 := by
  by_cases hj : jumps i m
  · rw [exec, if_pos hj, if_pos hj]
    exact .inr rfl
  · rw [exec, if_neg hj, if_neg hj]
    cases i.op with
    | exit => exact .inl (Option.some_ne_none _)
    | ldxDw =>
      right
      dsimp only
      split <;> rfl
    | _ => exact .inr rfl

/-- What the body of the loop accesses. -/
theorem exec_log (ctx : Ctx) (w : World) (i : Insn) (m : Vm) : (exec ctx w i m).log =
    if i.op = .ldxDw ∧ mayLoad ctx (loadAddr i m) then .load (loadAddr i m) :: m.log else m.log := by
  unfold exec jumps
  cases hop : i.op with
  | ldxDw =>
    simp only [Bool.false_eq_true, if_false, true_and]
    split <;> rfl
  | jmpImm c | jmpReg c =>
    simp only
    split <;> rfl
  | _ => rfl

/-! ## When the interpreter returns -/

theorem returned_stays {n : Nat} (h : (vmRun prog ctx world n).ret ≠ none) : ∀ k ≥ n, (vmRun prog ctx world k).ret ≠ none := by
  intro k hk
  induction k, hk using Nat.le_induction with
  | base => exact h
  | succ k hk ih =>
    rw [vmRun, round, if_pos (Option.isSome_iff_ne_none.mpr ih)]
    exact ih

theorem fetch_bounds {pc : Int} {insn : Word} (h : fetch prog pc = some insn) : 0 ≤ pc ∧ pc < maxInsns := by
  unfold fetch at h
  split at h
  · omega
  · exact absurd h (Option.some_ne_none _).symm

/-- A round that does not jump back returns, leaves the program at the front, or moves on. -/
theorem round_advances (h : ¬JumpsBack prog m) : (round prog ctx w m).ret ≠ none ∨
    (0 ≤ m.pc ∧ m.pc < maxInsns) ∧ ((round prog ctx w m).pc < 0 ∨ m.pc < (round prog ctx w m).pc) := by
  obtain ⟨hr, he⟩ | ⟨-, -, he⟩ | ⟨i, hi, he⟩ := round_cases prog ctx w m
  · rw [he]
    exact .inl hr
  · rw [he]
    exact .inl (Option.some_ne_none _)
  · rw [he]
    refine (exec_pc ctx w i m).imp_right fun hpc => ?_
    obtain ⟨-, insn, hf, -⟩ := id hi
    refine ⟨fetch_bounds hf, ?_⟩
    rw [hpc]
    split
    · rename_i hj
      have : ¬(i.off + 1 ≤ 0 ∧ 0 ≤ m.pc + (i.off + 1)) := fun hback => h ⟨i, hi, hj, hback⟩
      omega
    · omega

/-- Once a run jumps back no more it returns within the length of a program. -/
theorem returns_once_settled {n : Nat} (h : ∀ k ≥ n, ¬JumpsBack prog (vmRun prog ctx world k)) :
    (vmRun prog ctx world (n + maxInsns + 1)).ret ≠ none := by
  by_contra hnever
  have hstep : ∀ k ≥ n, k ≤ n + maxInsns →
      (0 ≤ (vmRun prog ctx world k).pc ∧ (vmRun prog ctx world k).pc < maxInsns) ∧
        ((vmRun prog ctx world (k + 1)).pc < 0 ∨ (vmRun prog ctx world k).pc < (vmRun prog ctx world (k + 1)).pc) :=
    fun k hk hle => (round_advances (h k hk)).resolve_left fun hr : (vmRun prog ctx world (k + 1)).ret ≠ none =>
      returned_stays hr _ (by omega) hnever
  have hgrows : ∀ k : Nat, k ≤ maxInsns → (k : Int) ≤ (vmRun prog ctx world (n + k)).pc := by
    intro k
    induction k with
    | zero => exact fun _ => (hstep n le_rfl (by omega)).1.1
    | succ k ih =>
      intro hk
      have h1 := hstep (n + k) (by omega) (by omega)
      have h2 := hstep (n + k + 1) (by omega) (by omega)
      rw [← Nat.add_assoc]
      omega
  have hlast := hgrows maxInsns le_rfl
  have hin := (hstep (n + maxInsns) (by omega) le_rfl).1.2
  omega

/-- `vm_run` returns if and only if it jumps back finitely often. -/
theorem returns_iff_jumps_settle (prog : List Word) (ctx : Ctx) (world : Nat → World) :
    (∃ n, (vmRun prog ctx world n).ret ≠ none) ↔ ∃ n, ∀ k ≥ n, ¬JumpsBack prog (vmRun prog ctx world k) := by
  constructor
  · rintro ⟨n, h⟩
    refine ⟨n, fun k hk hback => ?_⟩
    obtain ⟨i, ⟨hret, -⟩, -⟩ := hback
    exact returned_stays h k hk hret
  · rintro ⟨n, h⟩
    exact ⟨n + maxInsns + 1, returns_once_settled h⟩

/-- A jump to itself. -/
def spin : Word := 0xFFFF0005

theorem jump_to_itself_hangs : [spin].length ≤ maxInsns ∧
    ∀ (ctx : Ctx) (world : Nat → World) (n : Nat), (vmRun [spin] ctx world n).ret = none := by
  refine ⟨by decide, fun ctx world n => ?_⟩
  have h : (vmRun [spin] ctx world n).ret = none ∧ (vmRun [spin] ctx world n).pc = 0 := by
    induction n with
    | zero => exact ⟨rfl, rfl⟩
    | succ n ih =>
      obtain ⟨hret, hpc⟩ := ih
      have hx : Executes [spin] (vmRun [spin] ctx world n) (decode spin) :=
        ⟨hret, spin, by rw [hpc]; rfl, rfl⟩
      have hoff : (decode spin).off + 1 = 0 := by decide
      have hj : jumps (decode spin) (vmRun [spin] ctx world n) = true := rfl
      rw [vmRun, round_of_executes hx, exec]
      exact ⟨hret, by rw [hpc]; rfl⟩
  exact h.1

/-! ## What the interpreter reads -/

/-- The eight bytes at `addr` belong to the context. -/
def Ctx.Inside (ctx : Ctx) (addr : Word) : Prop :=
  ctx.addr.toNat ≤ addr.toNat ∧ addr.toNat + 8 ≤ ctx.addr.toNat + 64

/-- The end of the eight bytes at `addr` wraps around, and that of the context does not. -/
def Ctx.Wraps (ctx : Ctx) (addr : Word) : Prop := 2 ^ 64 ≤ addr.toNat + 8 ∧ ctx.addr.toNat + 64 < 2 ^ 64

/-- The check is sound except where the address wraps around; there it lets the load pass. -/
theorem mayLoad_inside_iff (ctx : Ctx) (addr : Word) : (mayLoad ctx addr = true → ctx.Inside addr) ↔ ¬ctx.Wraps addr := by
  simp only [mayLoad, Bool.and_eq_true, decide_eq_true_eq, BitVec.le_def, BitVec.toNat_add, BitVec.toNat_ofNat,
    Ctx.Inside, Ctx.Wraps]
  omega

/-- Every access of a run is a load from the context if and only if no load of the run has an address that wraps
around. -/
theorem loads_inside_iff (prog : List Word) (ctx : Ctx) (world : Nat → World) :
    (∀ n, ∀ a ∈ (vmRun prog ctx world n).log, ∃ addr, a = .load addr ∧ ctx.Inside addr) ↔
      ∀ n i, Executes prog (vmRun prog ctx world n) i → i.op = .ldxDw →
        ¬ctx.Wraps (loadAddr i (vmRun prog ctx world n)) := by
  constructor
  · intro h n i hi hop
    refine (mayLoad_inside_iff ctx _).mp fun hmay => ?_
    have hlog : (vmRun prog ctx world (n + 1)).log =
        .load (loadAddr i (vmRun prog ctx world n)) :: (vmRun prog ctx world n).log := by
      rw [vmRun, round_of_executes hi, exec_log, if_pos ⟨hop, hmay⟩]
    obtain ⟨addr, he, hin⟩ := h (n + 1) (.load (loadAddr i (vmRun prog ctx world n))) (by rw [hlog]; exact .head _)
    obtain rfl := Access.load.inj he
    exact hin
  · intro h n
    induction n with
    | zero => exact fun a ha => absurd ha List.not_mem_nil
    | succ n ih =>
      rw [vmRun]
      obtain ⟨-, he⟩ | ⟨-, -, he⟩ | ⟨i, hi, he⟩ := round_cases prog ctx (world n) (vmRun prog ctx world n)
      · rwa [he]
      · rwa [he]
      · rw [he, exec_log]
        split
        · rename_i hload
          have hin := (mayLoad_inside_iff ctx _).mpr (h n i hi hload.1) hload.2
          exact List.forall_mem_cons.mpr ⟨⟨_, rfl, hin⟩, ih⟩
        · exact ih

/-- `mov r2, -8; ldx r0, [r2]`. -/
def readTop : List Word := [0xFFFFFFF8000002b7, 0x2079]

theorem read_outside_context : let ctx : Ctx := ⟨0x80200000, by decide⟩
    (vmRun readTop ctx (fun _ => ⟨0, 0, fun _ => 0⟩) 2).log = [.load 0xFFFFFFFFFFFFFFF8] ∧
      ¬ctx.Inside 0xFFFFFFFFFFFFFFF8 := by
  refine ⟨by rfl, ?_⟩
  unfold Ctx.Inside
  decide

end Runs
end OpenV.Trace
