import Mathlib

/- Pipelines of the shell (`user/sh/src/main.rs`). `parse_pipeline` cuts a line into
   tokens and the tokens into stages; `exec_pipeline` looks at the first argument of
   every stage. A stage is kept at each `|`, whatever it holds: a pipe that comes
   before any word of its stage leaves one without arguments. -/
namespace OpenV.Sh

abbrev Token := List UInt8

def bar : UInt8 := 124
def less : UInt8 := 60
def more : UInt8 := 62

structure Stage where
  args : List Token := []
  stdinFile : Option Token := none
  stdoutFile : Option Token := none

def isQuote (b : UInt8) : Bool := b == 34 || b == 39

def isBlank (b : UInt8) : Bool := b == 32 || b == 9

/-- The word read so far, unless it is empty. -/
def word (cur : Token) : List Token := if cur.isEmpty then [] else [cur]

/-- The first phase on the rest of a line, with the word read so far and the open quote. -/
def tokens : List UInt8 → Token → Option UInt8 → List Token
  | [], cur, _ => word cur
  | b :: line, cur, some q => if b = q then tokens line cur none else tokens line (cur ++ [b]) (some q)
  | b :: line, cur, none =>
    if isQuote b then tokens line cur (some b)
    else if b = bar ∨ b = less then word cur ++ [b] :: tokens line [] none
    else if b = more then
      match line with
      | [] => word cur ++ [[b]]
      | c :: rest =>
        if c = more then word cur ++ [more, more] :: tokens rest [] none
        else word cur ++ [b] :: tokens (c :: rest) [] none
    else if isBlank b then word cur ++ tokens line [] none
    else tokens line (cur ++ [b]) none

/-- The second phase, with the stage read so far. -/
def stages (cur : Stage) : List Token → List Stage
  | [] => if cur.args.isEmpty then [] else [cur]
  | t :: ts =>
    if t = [bar] then cur :: stages {} ts
    else if t = [less] then
      match ts with
      | [] => stages cur []
      | file :: rest => stages { cur with stdinFile := some file } rest
    else if t = [more] ∨ t = [more, more] then
      match ts with
      | [] => stages cur []
      | file :: rest => stages { cur with stdoutFile := some file } rest
    else stages { cur with args := cur.args ++ [t] } ts

def parsePipeline (line : List UInt8) : List Stage := stages {} (tokens line [] none)

/-- `exec_pipeline`: the child of each stage takes `args[0]`, where `none` is an index out of range. -/
def execPipeline (stages : List Stage) : List (Option Token) := stages.map fun stage => stage.args[0]?

/-- Every pipe comes after a word of its own stage; `fed` says whether the current stage has one. -/
def Fed : Bool → List Token → Bool
  | _, [] => true
  | fed, t :: ts =>
    if t = [bar] then fed && Fed false ts
    else if t = [less] ∨ t = [more] ∨ t = [more, more] then
      match ts with
      | [] => true
      | _ :: rest => Fed fed rest
    else Fed true ts

theorem args_iff_fed (cur : Stage) (ts : List Token) :
    (∀ stage ∈ stages cur ts, stage.args ≠ []) ↔ Fed (!cur.args.isEmpty) ts = true := by
  fun_induction stages cur ts with
  | case1 | case2 => simp_all [Fed]
  | case3 cur rest ih =>
    rw [Fed.eq_def, List.forall_mem_cons, ih]
    simp
  | case4 | case5 | case6 | case7 => simp_all [Fed]
  | case8 cur t rest h1 h2 h3 ih =>
    have hfed : (cur.args ++ [t]).isEmpty = false := by simp
    rw [Fed.eq_def, ih, hfed]
    simp_all

theorem execPipeline_iff (ss : List Stage) : none ∉ execPipeline ss ↔ ∀ stage ∈ ss, stage.args ≠ [] := by
  simp [execPipeline]

/-- Every stage of a pipeline has an argument if and only if every pipe comes after one. -/
theorem pipeline_args_iff (line : List UInt8) :
    (2 ≤ (parsePipeline line).length → (∀ stage ∈ parsePipeline line, stage.args ≠ []) ∧
        none ∉ execPipeline (parsePipeline line)) ↔
      ((parsePipeline line).length < 2 ∨ Fed false (tokens line [] none) = true) := by
  rw [execPipeline_iff, and_self, parsePipeline, args_iff_fed, ← Nat.not_le, ← imp_iff_not_or]
  rfl

/-- `| c`, and `a || c`. -/
theorem pipeline_without_args :
    execPipeline (parsePipeline [124, 32, 99]) = [none, some [99]] ∧
      execPipeline (parsePipeline [97, 32, 124, 124, 32, 99]) = [some [97], none, some [99]] := by
  decide

end OpenV.Sh
