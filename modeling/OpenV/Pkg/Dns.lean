import Mathlib

/- The parser of domain names (`user/pkg/src/dns.rs`). A name is a list of labels that may
   end in a pointer to another name of the packet, for which the parser calls itself. It
   looks at no byte outside of the packet, and it returns if and only if the pointers that
   it comes to do not lead around in a circle. -/
namespace OpenV.Pkg

open Relation

abbrev Byte := BitVec 8

/-- `data[start..start + len]` -/
def slice (data : List Byte) (start len : Nat) : Option (List Byte) :=
  if start + len ≤ data.length then some ((data.drop start).take len) else none

/-- What a round of the loop comes to: the end, `None`, an index outside of the packet, a pointer or a label. -/
inductive Round where
  | done | fail | outside
  | pointer (ptr : Nat)
  | label (bytes : List Byte) (next : Nat)

def round (data : List Byte) (pos : Nat) : Round :=
  if data.length ≤ pos then .fail
  else match data[pos]? with
    | none => .outside
    | some len =>
      if len = 0#8 then .done
      else if len &&& 0xC0#8 = 0xC0#8 then
        if data.length ≤ pos + 1 then .fail
        else match data[pos + 1]? with
          | none => .outside
          | some low => .pointer (((len.toNat &&& 0x3F) <<< 8) ||| low.toNat)
      else if data.length < pos + 1 + len.toNat then .fail
      else match slice data (pos + 1) len.toNat with
        | none => .outside
        | some bytes => .label bytes (pos + 1 + len.toNat)

/-- A round stays in the packet, its pointers have 14 bits, and a label brings it forward. -/
def Round.Fits (data : List Byte) (pos : Nat) : Round → Prop
  | outside => False
  | pointer ptr => ptr < 2 ^ 14
  | label _ next => pos < data.length ∧ pos < next
  | _ => True

/-- How a call ends, if it does so within the calls and rounds that it is given. -/
inductive Parsed where
  | name (bytes : List Byte) (pos : Nat)
  | none | outside | running

def Parsed.Returned : Parsed → Prop
  | name .. | none => True
  | outside | running => False

/-- A name that goes on. -/
def dotted (name : List Byte) : List Byte := if name = [] then [] else name ++ [0x2E#8]

/-- What the call for a pointer returns is the end of the name. -/
def Parsed.behind (name : List Byte) (pos : Nat) : Parsed → Parsed
  | .name suffix _ => .name (dotted name ++ suffix) pos
  | r => r

/-- `parse_dns_name`: the loop at `pos`, with the labels before it. -/
def parseDnsName (data : List Byte) : Nat → Nat → List Byte → Parsed
  | 0, _, _ => .running
  | n + 1, pos, name =>
    match round data pos with
    | .done => .name name (pos + 1)
    | .fail => .none
    | .outside => .outside
    | .pointer ptr => (parseDnsName data n ptr []).behind name (pos + 2)
    | .label bytes next => parseDnsName data n next (dotted name ++ bytes)

/-- The labels at a position end in a pointer. -/
inductive Leads (data : List Byte) : Nat → Nat → Prop where
  | here {pos ptr : Nat} (h : round data pos = .pointer ptr) : Leads data pos ptr
  | label {pos next ptr : Nat} {bytes : List Byte} (h : round data pos = .label bytes next)
      (hl : Leads data next ptr) : Leads data pos ptr

/-- From here the pointers do not lead around in a circle. -/
def Straight (data : List Byte) (pos : Nat) : Prop :=
  ¬∃ ptr, ReflTransGen (Leads data) pos ptr ∧ TransGen (Leads data) ptr ptr

section
variable {data : List Byte} {pos : Nat}

theorem round_fits (data : List Byte) (pos : Nat) : (round data pos).Fits data pos := by
  unfold round
  split
  · trivial
  · rename_i hpos
    rw [List.getElem?_eq_getElem (Nat.not_le.mp hpos)]
    dsimp only
    split
    · trivial
    · split
      · split
        · trivial
        · rename_i hlow
          rw [List.getElem?_eq_getElem (Nat.not_le.mp hlow)]
          refine Nat.or_lt_two_pow ?_ (Nat.lt_trans (BitVec.isLt _) (by decide))
          rw [Nat.shiftLeft_eq]
          have := @Nat.and_le_right data[pos].toNat 0x3F
          omega
      · split
        · trivial
        · rename_i hin
          rw [slice, if_pos (Nat.not_lt.mp hin)]
          exact ⟨Nat.not_le.mp hpos, by omega⟩

theorem returned_behind {name : List Byte} {r : Parsed} : (r.behind name pos).Returned ↔ r.Returned := by
  cases r <;> rfl

theorem parse_inside (n : Nat) (name : List Byte) : parseDnsName data n pos name ≠ .outside := by
  induction n generalizing pos name with
  | zero => exact nofun
  | succ n ih =>
    have hfits := round_fits data pos
    rw [parseDnsName]
    cases hr : round data pos with
    | outside =>
      rw [hr] at hfits
      exact hfits.elim
    | pointer ptr =>
      have hptr := @ih ptr []
      dsimp only
      cases hp : parseDnsName data n ptr [] with
      | outside => exact absurd hp hptr
      | _ => exact nofun
    | label bytes next => exact ih _
    | _ => exact nofun

theorem Leads.lt {ptr : Nat} (h : Leads data pos ptr) : ptr < 2 ^ 14 := by
  induction h with
  | here hr =>
    rename_i pos ptr
    have hfits := round_fits data pos
    rw [hr] at hfits
    exact hfits
  | label _ _ ih => exact ih

/-- A call that returns has followed all pointers to the end. -/
theorem acc_of_returned {n : Nat} {name : List Byte} (h : (parseDnsName data n pos name).Returned) :
    Acc (fun q p => Leads data p q) pos := by
  induction n generalizing pos name with
  | zero => exact h.elim
  | succ n ih =>
    rw [parseDnsName] at h
    refine ⟨_, fun q hq => ?_⟩
    cases hq with
    | here hr =>
      rw [hr] at h
      exact ih (returned_behind.mp h)
    | label hr hq =>
      rw [hr] at h
      exact (ih h).inv hq

/-- The labels at a position are read up to their end, since there is less to read behind each. -/
theorem returned_of_leads {pos : Nat} (hptr : ∀ q, Leads data pos q → ∃ n, (parseDnsName data n q []).Returned)
    (name : List Byte) : ∃ n, (parseDnsName data n pos name).Returned := by
  have hfits := round_fits data pos
  cases hr : round data pos with
  | outside =>
    rw [hr] at hfits
    exact hfits.elim
  | pointer ptr =>
    obtain ⟨n, hn⟩ := hptr ptr (.here hr)
    refine ⟨n + 1, ?_⟩
    rw [parseDnsName, hr]
    exact returned_behind.mpr hn
  | label bytes next =>
    rw [hr] at hfits
    obtain ⟨hin, hnext⟩ := hfits
    obtain ⟨n, hn⟩ := returned_of_leads (fun q hq => hptr q (.label hr hq)) (dotted name ++ bytes)
    refine ⟨n + 1, ?_⟩
    rw [parseDnsName, hr]
    exact hn
  | _ =>
    refine ⟨1, ?_⟩
    rw [parseDnsName, hr]
    trivial
termination_by data.length - pos
decreasing_by omega

/-- There are finitely many offsets to point to, so that pointers that go on for ever go around in a circle. -/
theorem Straight.acc (h : Straight data pos) : Acc (fun q p => Leads data p q) pos := by
  let Target := { ptr : Fin (2 ^ 14) // ReflTransGen (Leads data) pos ptr }
  let below : Target → Target → Prop := fun q p => TransGen (Leads data) p.1 q.1
  have : IsTrans Target below := ⟨fun _ _ _ h1 h2 => h2.trans h1⟩
  have : Std.Irrefl below := ⟨fun p hp => h ⟨_, p.2, hp⟩⟩
  have hwf : WellFounded below := Finite.wellFounded_of_trans_of_irrefl below
  have hacc : ∀ p : Target, Acc (fun q p => Leads data p q) p.1 := by
    intro p
    induction p using hwf.induction with
    | _ p ih => exact ⟨_, fun q hq => ih ⟨⟨q, hq.lt⟩, p.2.tail hq⟩ (.single hq)⟩
  exact ⟨_, fun q hq => hacc ⟨⟨q, hq.lt⟩, .single hq⟩⟩

theorem straight_of_acc (h : Acc (fun q p => Leads data p q) pos) : Straight data pos := by
  induction h with
  | intro p _ ih =>
    rintro ⟨ptr, hreach, hcircle⟩
    rcases hreach.cases_head with rfl | ⟨q, hq, hreach⟩
    · obtain ⟨q, hq, hback⟩ := TransGen.head'_iff.mp hcircle
      exact ih q hq ⟨p, hback, hcircle⟩
    · exact ih q hq ⟨ptr, hreach, hcircle⟩

/-- A call returns, and looks at no byte outside of the packet, if and only if the pointers that it comes to do not lead
around in a circle. -/
theorem parse_returns_iff (data : List Byte) (pos : Nat) :
    (∃ n, (parseDnsName data n pos []).Returned) ∧ (∀ n, parseDnsName data n pos [] ≠ .outside) ↔ Straight data pos := by
  refine ⟨fun ⟨⟨n, hn⟩, _⟩ => straight_of_acc (acc_of_returned hn), fun h => ⟨?_, fun n => parse_inside n []⟩⟩
  have hacc := h.acc
  clear h
  induction hacc with
  | intro p _ ih => exact returned_of_leads ih []

end

/-- A pointer that points to itself. -/
theorem parse_circle : ¬∃ n, (parseDnsName [0xC0#8, 0x00#8] n 0 []).Returned := by
  rintro ⟨n, hn⟩
  induction n with
  | zero => exact hn
  | succ n ih =>
    refine ih ?_
    have hr : round [0xC0#8, 0x00#8] 0 = .pointer 0 := rfl
    rw [parseDnsName, hr] at hn
    exact returned_behind.mp hn

end OpenV.Pkg
