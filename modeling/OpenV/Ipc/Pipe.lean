import OpenV.Lib.Run
import OpenV.Mm.Vmm

/- Pipes (`src/ipc/handle.rs`, `src/syscall/fs.rs`). Both halves share a queue of bytes, and the
   end of the stream and a broken pipe are told from the numbers of clones of the other half.
   A write looks at the read ends before it takes the lock of the queue; a read that finds the
   queue empty keeps the lock while it looks at the write ends. So these are steps of their own.
   Calls are made with handles that have the right for them. -/
namespace OpenV.Pipe

open Cmd

abbrev Bytes := List (BitVec 8)

/-- What `sys_write` and `sys_read` have returned. -/
inductive Outcome where
  | wrote (buf : Bytes)
  /-- EPIPE -/
  | brokenPipe
  /-- EFAULT -/
  | badPointer
  | gave (len : Nat) (bytes : Bytes)
  | endOfFile
  deriving DecidableEq

/-- `held`: a reader that has found the queue empty has its lock. `writing`: the writes that have looked at
the read ends and wait for the lock. -/
structure State where
  data : Bytes := []
  readEnds : Nat := 1
  writeEnds : Nat := 1
  held : Bool := false
  writing : List Bytes := []
  outcomes : List Outcome := []

inductive Step where
  | write (ptr : Nat) (buf : Bytes)
  | push (buf : Bytes)
  | read (ptr len : Nat)
  /-- the look at the write ends, before or after the reader has registered -/
  | checkEof (registered : Bool)
  | dupRead
  | dupWrite
  | closeRead
  | closeWrite

def Step.exec : Step → Cmd State Unit
  | .write ptr buf => do
    let s ← get
    require (0 < s.writeEnds) "no handle"
    if isUserPointerValid 1 ptr buf.length = false then
      modify fun s => { s with outcomes := s.outcomes ++ [.badPointer] }
    else if s.readEnds = 0 then modify fun s => { s with outcomes := s.outcomes ++ [.brokenPipe] }
    else modify fun s => { s with writing := buf :: s.writing }
  | .push buf => do
    let s ← get
    require (buf ∈ s.writing ∧ s.held = false) "waits for the lock"
    modify fun s => { s with
      data := s.data ++ buf, writing := s.writing.erase buf, outcomes := s.outcomes ++ [.wrote buf] }
  | .read ptr len => do
    let s ← get
    require (0 < s.readEnds ∧ s.held = false) "no handle, or waits for the lock"
    if isUserPointerValid 1 ptr len = false then modify fun s => { s with outcomes := s.outcomes ++ [.badPointer] }
    else if s.data = [] then modify fun s => { s with held := true }
    else modify fun s => { s with data := s.data.drop len, outcomes := s.outcomes ++ [.gave len (s.data.take len)] }
  | .checkEof registered => do
    let s ← get
    require (s.held = true) "no reader"
    if s.writeEnds = 0 then modify fun s => { s with held := false, outcomes := s.outcomes ++ [.endOfFile] }
    else modify fun s => { s with held := !registered }
  | .dupRead => modify fun s => { s with readEnds := if s.readEnds = 0 then 0 else s.readEnds + 1 }
  | .dupWrite => modify fun s => { s with writeEnds := if s.writeEnds = 0 then 0 else s.writeEnds + 1 }
  | .closeRead => modify fun s => { s with readEnds := s.readEnds - 1 }
  | .closeWrite => modify fun s => { s with writeEnds := s.writeEnds - 1 }

def Outcome.written : Outcome → Bytes
  | .wrote buf => buf
  | _ => []

def Outcome.given : Outcome → Bytes
  | .gave _ bytes => bytes
  | _ => []

/-- The number that the call returns to a reader. -/
def Outcome.count : Outcome → Option Nat
  | .gave _ bytes => some bytes.length
  | .endOfFile => some 0
  | _ => none

/-- The buffer that a call is made with is one of a user. -/
def Step.valid : Step → Bool
  | .write ptr buf => isUserPointerValid 1 ptr buf.length
  | .read ptr len => isUserPointerValid 1 ptr len
  | _ => true

/-- What a step may add to the outcomes: a read of at least one byte gives none only at the end of the stream, and
a call with a valid buffer fails only when there is no reader. -/
def Honest (st : Step) (s s' : State) : Prop :=
  ∀ o, s'.outcomes = s.outcomes ++ [o] →
    (o.count = some 0 → (∀ bytes, o ≠ .gave 0 bytes) → s.data = [] ∧ s.writeEnds = 0) ∧
    (o = .brokenPipe ∨ o = .badPointer → st.valid = true → s.readEnds = 0)

/-- The bytes that were read, and those still in the queue, are the bytes that were written. -/
def Ordered (s : State) : Prop := (s.held = true → s.data = []) ∧
  s.outcomes.flatMap Outcome.written = s.outcomes.flatMap Outcome.given ++ s.data

section Steps
variable {st : Step} {s s' : State}

theorem Honest.silent (e : s'.outcomes = s.outcomes) : Honest st s s' := fun o ho => by simp [e] at ho

theorem Honest.one {x : Outcome} (e : s'.outcomes = s.outcomes ++ [x])
    (h0 : x.count = some 0 → (∀ bytes, x ≠ .gave 0 bytes) → s.data = [] ∧ s.writeEnds = 0)
    (hb : x = .brokenPipe ∨ x = .badPointer → st.valid = true → s.readEnds = 0) : Honest st s s' := fun o ho => by
  obtain rfl : x = o := by simpa [e] using ho
  exact ⟨h0, hb⟩

theorem Ordered.fails (h : Ordered s) {x : Outcome} (hw : x.written = []) (hg : x.given = []) :
    Ordered { s with outcomes := s.outcomes ++ [x] } := by
  refine ⟨h.1, ?_⟩
  simpa [hw, hg] using h.2

theorem step_ordered (st : Step) (h : Ordered s) :
    st.exec.endsIn (fun s' => Ordered s' ∧ Honest st s s') s := by
  have hsame : Ordered s ∧ Honest st s s := ⟨h, .silent rfl⟩
  have hbad : st.valid = false → ∀ x : Outcome, x = .brokenPipe ∨ x = .badPointer → st.valid = true → s.readEnds = 0 :=
    fun hv _ _ e => absurd (hv.symm.trans e) Bool.false_ne_true
  have ⟨hheld, hord⟩ := h
  cases st <;> simp only [Step.exec, require, wp_bind, wp_get, wp_ite, wp_pure, wp_fail, wp_modify]
  case write ptr buf =>
    refine ⟨fun _ => ⟨fun hv => ⟨h.fails rfl rfl, .one rfl (fun e => by cases e) (hbad hv _)⟩, fun _ => ⟨fun hr => ?_, fun _ => ?_⟩⟩,
      fun _ => hsame⟩
    · exact ⟨h.fails rfl rfl, .one rfl (fun e => by cases e) fun _ _ => hr⟩
    · exact ⟨⟨hheld, hord⟩, .silent rfl⟩
  case push buf =>
    refine ⟨fun hp => ⟨⟨fun e => ?_, ?_⟩, .one rfl (fun e => by cases e) (by rintro (e | e) <;> cases e)⟩, fun _ => hsame⟩
    · exact absurd (hp.2.symm.trans e) Bool.false_ne_true
    · simp [Outcome.written, Outcome.given, hord]
  case read ptr len =>
    refine ⟨fun hp => ⟨fun hv => ⟨h.fails rfl rfl, .one rfl (fun e => by cases e) (hbad hv _)⟩, fun _ => ⟨fun hd => ?_, fun hd => ?_⟩⟩,
      fun _ => hsame⟩
    · exact ⟨⟨fun _ => hd, hord⟩, .silent rfl⟩
    refine ⟨⟨fun e => absurd (hp.2.symm.trans e) Bool.false_ne_true, ?_⟩, .one rfl (fun h0 hlen => ?_) (by rintro (e | e) <;> cases e)⟩
    · simp [Outcome.written, Outcome.given, hord]
    · -- a buffer of at least one byte gets one
      have hl : min len s.data.length = 0 := by simpa [Outcome.count] using h0
      have hz : len ≠ 0 := fun e => hlen _ (by rw [e])
      have := List.length_pos_iff.mpr hd
      omega
  case checkEof registered =>
    refine ⟨fun hh => ⟨fun hw => ⟨⟨(fun e => by cases e), ?_⟩, .one rfl (fun _ _ => ⟨hheld hh, hw⟩) (by rintro (e | e) <;> cases e)⟩, fun _ => ?_⟩, fun _ => hsame⟩
    · simpa [Outcome.written, Outcome.given] using hord
    · exact ⟨⟨fun _ => hheld hh, hord⟩, .silent rfl⟩
  all_goals exact ⟨⟨hheld, hord⟩, .silent rfl⟩

end Steps

/-- In every run, the bytes that were read are a prefix of those that were written. -/
theorem pipe_stream (steps : List Step) : Along Step.exec (fun st s s' => Honest st s s' ∧
      s'.outcomes.flatMap Outcome.given <+: s'.outcomes.flatMap Outcome.written) steps {} :=
  Along.of_inv Ordered (fun st _ h _ => endsIn_mono (step_ordered st h)
    fun s' h => ⟨h.1, h.2, s'.data, h.1.2.symm⟩) ⟨nofun, rfl⟩ (along_true _ _)

/-- A read with an empty buffer returns 0 while there are bytes, and a write from a null pointer fails. -/
theorem pipe_empty_buffer : ∃ s, runAll Step.exec [.write 0x100000000 [7], .push [7], .read 0x100000000 0,
    .write 0 [8]] {} = some s ∧ s.outcomes = [.wrote [7], .gave 0 [], .badPointer] ∧ s.data = [7] ∧ s.readEnds = 1 :=
  ⟨_, rfl, rfl, rfl, rfl⟩

end OpenV.Pipe
