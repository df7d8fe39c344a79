import OpenV.Lib.Run

/- The line discipline of the terminal (`src/trap/interrupt.rs`) and reads of it in cooked mode
   (`src/syscall/fs.rs`). Finished lines and the line being typed are in one queue, and an erase
   character takes the last byte of the queue, whichever of the two it belongs to. -/
namespace OpenV.Tty

open Cmd List

abbrev Byte := BitVec 8

def newline : Byte := 0x0A

/-- What the line discipline takes a byte for; Control-C and Control-Z break. -/
inductive Kind where
  | brk | enter | erase | char

def kind (c : Byte) : Kind :=
  if c = 0x03 ∨ c = 0x1A then .brk
  else if c = 0x0D ∨ c = newline then .enter
  else if c = 0x08 ∨ c = 0x7F then .erase
  else .char

/-- `TtyState`, as far as cooked mode uses it. -/
structure TtyState where
  buf : List Byte := []
  ctrlc : Bool := false

/-- One round of the loop of `poll_uart_into_linedisc`; `fg` says whether there is a foreground process. -/
def TtyState.key (fg : Bool) (c : Byte) (t : TtyState) : TtyState :=
  match kind c with
  | .brk => if fg then t else ⟨t.buf ++ [c], true⟩
  | .enter => { t with buf := t.buf ++ [newline] }
  | .erase => { t with buf := t.buf.dropLast }
  | .char => { t with buf := t.buf ++ [c] }

/-- `sys_read`: the bytes that it returns, if the caller does not go to sleep. -/
def TtyState.read (len : Nat) (t : TtyState) : Option (List Byte) × TtyState :=
  if t.ctrlc then (some [], { t with ctrlc := false })
  else if newline ∈ t.buf then
    let take := min len (t.buf.idxOf newline + 1)
    (some (t.buf.take take), { t with buf := t.buf.drop take })
  else (none, t)

/-- A line editor: the finished lines, as far as they have not been read, and the line being typed. -/
structure Editor where
  lines : List (List Byte) := []
  line : List Byte := []
  interrupted : Bool := false

open Editor

def Editor.key (fg : Bool) (c : Byte) (e : Editor) : Editor :=
  match kind c with
  | .brk => if fg then e else { e with line := e.line ++ [c], interrupted := true }
  | .enter => { e with lines := e.lines ++ [e.line ++ [newline]], line := [] }
  | .erase => { e with line := e.line.dropLast }
  | .char => { e with line := e.line ++ [c] }

def Editor.read (len : Nat) (e : Editor) : Option (List Byte) × Editor :=
  if e.interrupted then (some [], { e with interrupted := false })
  else match e.lines with
    | [] => (none, e)
    | l :: ls => (some (l.take len), { e with lines := if len < l.length then l.drop len :: ls else ls })

/-- The queue that has the text of the editor. -/
def Editor.text (e : Editor) : TtyState := ⟨e.lines.flatten ++ e.line, e.interrupted⟩

/-- The terminal, and an editor that is given the same keys and reads. -/
structure Desk where
  tty : TtyState := {}
  ed : Editor := {}

inductive Op where
  | key (fg : Bool) (c : Byte)
  | read (len : Nat)

namespace Op

def run : Op → Cmd Desk Unit
  | key fg c => modify fun s => ⟨s.tty.key fg c, s.ed.key fg c⟩
  | read len => modify fun s => ⟨(s.tty.read len).2, (s.ed.read len).2⟩

/-- A read returns what the editor gives, and the queue has the text of the editor. -/
def Edits (op : Op) (s s' : Desk) : Prop :=
  (∀ len, op = read len → (s.tty.read len).1 = (s.ed.read len).1) ∧ s'.tty = s'.ed.text

/-- An erase character finds something in the line being typed, or there is nothing to read. -/
def Safe (s : Desk) : Op → Prop
  | key _ c => kind c = .erase → s.ed.line ≠ [] ∨ s.ed.lines = []
  | read _ => True

end Op

structure Editor.Ok (e : Editor) : Prop where
  finished : ∀ l ∈ e.lines, ∃ b, l = b ++ [newline] ∧ newline ∉ b
  current : newline ∉ e.line

theorem read_line {b : List Byte} (hb : newline ∉ b) (rest : List Byte) (len : Nat) :
    TtyState.read len ⟨b ++ [newline] ++ rest, false⟩ =
      (some ((b ++ [newline]).take len), ⟨(b ++ [newline]).drop len ++ rest, false⟩) := by
  have hmem : newline ∈ b ++ [newline] ++ rest := by simp
  have hidx : (b ++ [newline] ++ rest).idxOf newline + 1 = (b ++ [newline]).length := by
    rw [append_assoc, idxOf_append, if_neg hb]
    simp
  have hle : min len (b ++ [newline]).length ≤ (b ++ [newline]).length := Nat.min_le_right _ _
  simp only [TtyState.read, Bool.false_eq_true, if_false, if_pos hmem, hidx, take_append_of_le_length hle,
    drop_append_of_le_length hle, ← take_eq_take_min, ← drop_eq_drop_min]

section
variable {e : Editor} (h : e.Ok)
include h

theorem read_text (len : Nat) : (e.text.read len).1 = (e.read len).1 ∧ (e.text.read len).2 = (e.read len).2.text ∧
    (e.read len).2.Ok := by
  obtain ⟨lines, line, interrupted⟩ := e
  cases interrupted with
  | true => exact ⟨rfl, rfl, h.finished, h.current⟩
  | false =>
    cases lines with
    | nil =>
      have hread : (Editor.text ⟨[], line, false⟩).read len = (none, ⟨line, false⟩) := if_neg h.current
      rw [hread]
      exact ⟨rfl, rfl, h⟩
    | cons l ls =>
      obtain ⟨hl, hrest⟩ := forall_mem_cons.mp h.finished
      obtain ⟨b, rfl, hb⟩ := hl
      have htext : Editor.text ⟨(b ++ [newline]) :: ls, line, false⟩ = ⟨b ++ [newline] ++ (ls.flatten ++ line), false⟩ := by
        simp [Editor.text]
      rw [htext, read_line hb]
      by_cases hlen : len < (b ++ [newline]).length
      -- A read that is too short for the line leaves the end of it, which is a line too.
      · have hle : len ≤ b.length := by simpa [Nat.lt_succ_iff] using hlen
        simp only [Editor.read, Editor.text, Bool.false_eq_true, if_false, if_pos hlen, flatten_cons, append_assoc]
        refine ⟨trivial, trivial, forall_mem_cons.mpr ⟨⟨b.drop len, ?_, ?_⟩, hrest⟩, h.current⟩
        · exact drop_append_of_le_length hle
        · exact fun hm => hb (mem_of_mem_drop hm)
      · have hdrop := drop_eq_nil_of_le (Nat.le_of_not_lt hlen)
        simp only [Editor.read, Editor.text, Bool.false_eq_true, if_false, if_neg hlen, hdrop, nil_append]
        exact ⟨trivial, trivial, hrest, h.current⟩

theorem key_text (fg : Bool) (c : Byte) : (e.key fg c).Ok ∧
    (Op.Safe ⟨e.text, e⟩ (.key fg c) ↔ e.text.key fg c = (e.key fg c).text) := by
  obtain ⟨lines, line, interrupted⟩ := e
  have hadd : kind c ≠ .enter → newline ∉ line ++ [c] := by
    intro hc hm
    rcases mem_append.mp hm with hm | hm
    · exact h.current hm
    · cases mem_singleton.mp hm
      exact hc rfl
  cases hk : kind c with
  | brk =>
    cases fg with
    | true => simpa [key, TtyState.key, hk, Op.Safe] using h
    | false => simpa [key, TtyState.key, hk, Op.Safe, text] using ⟨h.finished, hadd (by simp [hk])⟩
  | enter =>
    refine ⟨?_, by simp [key, TtyState.key, hk, Op.Safe, text]⟩
    simp only [key, hk]
    refine ⟨fun l hl => ?_, nofun⟩
    rcases mem_append.mp hl with hl | hl
    · exact h.finished l hl
    · exact ⟨line, mem_singleton.mp hl, h.current⟩
  | char => simpa [key, TtyState.key, hk, Op.Safe, text] using ⟨h.finished, hadd (by simp [hk])⟩
  | erase =>
    simp only [key, TtyState.key, hk, Op.Safe, true_implies, text]
    refine ⟨⟨h.finished, fun hm => h.current (dropLast_subset _ hm)⟩, ?_⟩
    cases line with
    | cons b l => simp [dropLast_append_of_ne_nil]
    | nil =>
      cases lines with
      | nil => simp
      | cons l ls =>
        -- The last byte of the queue is that of a finished line.
        obtain ⟨b, rfl, -⟩ := h.finished l (.head _)
        simp only [ne_eq, not_true_eq_false, reduceCtorEq, or_self, false_iff]
        intro ht
        have hlen := congrArg (fun t => t.buf.length) ht
        simp at hlen

end

/-- Readers are given the lines of an editor, and the queue is its text throughout, exactly in the runs in which no erase
character is typed when the line being typed is empty and there is something to read. -/
theorem lines_kept_iff (ops : List Op) :
    Along Op.run (fun op s _ => op.Safe s) ops {} ↔ Along Op.run Op.Edits ops {} := by
  refine along_iff_rel (I := fun s => s.tty = s.ed.text ∧ s.ed.Ok) (fun op s h => ?_) ⟨rfl, nofun, nofun⟩
  obtain ⟨tty, e⟩ := s
  obtain ⟨ht, hok⟩ := h
  dsimp only at ht
  subst ht
  cases op with
  | key fg c =>
    obtain ⟨hok', hiff⟩ := key_text hok fg c
    exact (wp_modify _).mpr ⟨hiff.trans ⟨fun ht => ⟨nofun, ht⟩, And.right⟩, fun hp => ⟨hp.2, hok'⟩⟩
  | read len =>
    obtain ⟨hret, ht, hok'⟩ := read_text hok len
    refine (wp_modify _).mpr ⟨iff_of_true trivial ⟨fun len' e => ?_, ht⟩, fun hp => ⟨hp.2, hok'⟩⟩
    cases e
    exact hret

/-- An erase character joins the line that was finished to the next. -/
theorem line_altered : ¬Along Op.run Op.Edits
    [.key true 0x61, .key true 0x0D, .key true 0x7F, .key true 0x62, .key true 0x0D, .read 8] {} := by
  rintro ⟨-, -, h, -⟩
  exact absurd (congrArg TtyState.buf h.2) (by decide)

end OpenV.Tty
