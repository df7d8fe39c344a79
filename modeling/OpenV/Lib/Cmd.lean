import Mathlib
/- Commands over a state: what a command returns, how commands compose, and
   weakest preconditions for them.

   A command either returns a value, returns an error that its caller may
   handle, or panics; a panic is never handled. State changes made before an
   error or a panic stay. `Cmd.wp c Q E X s` says that a run of `c` from `s`
   ends in a state satisfying `Q` (with the value returned), `E` (an error) or
   `X` (a panic). The rules below decompose `wp` along the syntax of a command;
   `wp_forEach` is the loop rule, with an invariant over the items already
   visited. -/
namespace OpenV

/-- The outcome of a command. -/
inductive Res (α : Type) where
  | ok (a : α)
  | err (e : String)
  | panic (e : String)
  deriving DecidableEq, Repr

/-- A command: a state transformer with an outcome. -/
def Cmd (σ α : Type) : Type := σ → Res α × σ

namespace Cmd
variable {σ τ α β ι : Type}

def bind (c : Cmd σ α) (f : α → Cmd σ β) : Cmd σ β := fun s =>
  match c s with
  | (.ok a, s') => f a s'
  | (.err e, s') => (.err e, s')
  | (.panic e, s') => (.panic e, s')

instance : Monad (Cmd σ) where
  pure a := fun s => (.ok a, s)
  bind := bind

/-- Return an error to the caller. -/
def fail (e : String) : Cmd σ α := fun s => (.err e, s)

/-- Stop the machine. -/
def die (e : String) : Cmd σ α := fun s => (.panic e, s)

def get : Cmd σ σ := fun s => (.ok s, s)

def modify (f : σ → σ) : Cmd σ Unit := fun s => (.ok (), f s)

/-- Run `c` and hand its error, if any, to the caller as a value. -/
def attempt (c : Cmd σ α) : Cmd σ (Except String α) := fun s =>
  match c s with
  | (.ok a, s') => (.ok (.ok a), s')
  | (.err e, s') => (.ok (.error e), s')
  | (.panic e, s') => (.panic e, s')

/-- Run `c` on a part of the state. -/
def zoom (part : σ → τ) (put : τ → σ → σ) (c : Cmd τ α) : Cmd σ α := fun s =>
  ((c (part s)).1, put (c (part s)).2 s)

/-- `for x in xs { body x }`, stopping at the first error. -/
def forEach : List ι → (ι → Cmd σ Unit) → Cmd σ Unit
  | [], _ => pure ()
  | x :: xs, body => do body x; forEach xs body

/-- `if p { c }` -/
def onlyIf (p : Prop) [Decidable p] (c : Cmd σ Unit) : Cmd σ Unit := if p then c else pure ()

/-- `if let Some(y) = x { c y }` -/
def forSome (x : Option ι) (c : ι → Cmd σ Unit) : Cmd σ Unit := x.elim (pure ()) c

/-- `if !p { return Err(e) }` -/
def require (p : Prop) [Decidable p] (e : String) : Cmd σ Unit := if p then pure () else fail e

/-! A first part whose run is known. -/

section Known
variable {c : Cmd σ α} {f : α → Cmd σ β} {s s' : σ} {a : α} {e : String}

theorem bind_ok (h : c s = (.ok a, s')) : (c >>= f) s = f a s' := by
  show bind c f s = _
  rw [bind, h]

theorem bind_get {f : σ → Cmd σ β} : (get >>= f) s = f s s := rfl

theorem bind_err (h : c s = (.err e, s')) : (c >>= f) s = (.err e, s') := by
  show bind c f s = _
  rw [bind, h]

theorem bind_panic (h : (c s).1 = .panic e) : ((c >>= f) s).1 = .panic e := by
  show (bind c f s).1 = _
  rw [bind]
  revert h
  rcases c s with ⟨_ | _ | _, _⟩ <;> intro h <;> cases h
  rfl

theorem bind_not_ok (hf : ∀ a s b s', f a s ≠ (.ok b, s')) (s : σ) (b : β) (s' : σ) : (c >>= f) s ≠ (.ok b, s') := by
  show bind c f s ≠ _
  rw [bind]
  rcases c s with ⟨a | _ | _, s₁⟩
  · exact hf a s₁ b s'
  · exact nofun
  · exact nofun

end Known

theorem eq_of_fst {c : Cmd σ α} {s : σ} {r : Res α} (h : (c s).1 = r) : c s = (r, (c s).2) := by
  rw [← h]

/-- An outcome satisfies `Q`, `E` or `X`, by its kind. -/
def Ends (Q : α → σ → Prop) (E X : σ → Prop) : Res α × σ → Prop
  | (.ok a, s') => Q a s'
  | (.err _, s') => E s'
  | (.panic _, s') => X s'

/-- A run of `c` from `s` ends in `Q`, `E` or `X`. -/
def wp (c : Cmd σ α) (Q : α → σ → Prop) (E X : σ → Prop) (s : σ) : Prop := Ends Q E X (c s)

section Rules
variable {Q : α → σ → Prop} {E X : σ → Prop} {s : σ}

@[simp] theorem wp_pure (a : α) : (pure a : Cmd σ α).wp Q E X s ↔ Q a s := Iff.rfl

@[simp] theorem wp_fail (e : String) : (fail e : Cmd σ α).wp Q E X s ↔ E s := Iff.rfl

@[simp] theorem wp_die (e : String) : (die e : Cmd σ α).wp Q E X s ↔ X s := Iff.rfl

@[simp] theorem wp_get {Q : σ → σ → Prop} : (get : Cmd σ σ).wp Q E X s ↔ Q s s := Iff.rfl

@[simp] theorem wp_modify {Q : Unit → σ → Prop} (f : σ → σ) : (modify f).wp Q E X s ↔ Q () (f s) := Iff.rfl

@[simp] theorem wp_bind {Q : β → σ → Prop} (c : Cmd σ α) (f : α → Cmd σ β) :
    (c >>= f).wp Q E X s ↔ c.wp (fun a s' => (f a).wp Q E X s') E X s := by
  show (Cmd.bind c f).wp Q E X s ↔ _
  unfold wp Cmd.bind
  rcases c s with ⟨_ | _ | _, _⟩ <;> exact Iff.rfl

variable {c : Cmd σ α} {Q' : α → σ → Prop} {E' X' : σ → Prop} {body : ι → Cmd σ Unit} {xs : List ι}

/-- The caller of `attempt` is prepared for every error. -/
theorem wp_attempt {Q : Except String α → σ → Prop}
    (h : c.wp (fun a s' => Q (.ok a) s') (fun s' => ∀ e, Q (.error e) s') X s) : (attempt c).wp Q E X s := by
  revert h
  unfold wp attempt
  rcases c s with ⟨_ | _ | _, _⟩
  · exact fun h => h
  · exact fun h => h _
  · exact fun h => h

@[simp] theorem wp_ite {p : Prop} [Decidable p] (c d : Cmd σ α) :
    (if p then c else d).wp Q E X s ↔ (p → c.wp Q E X s) ∧ (¬p → d.wp Q E X s) := by
  by_cases h : p <;> simp [h]

@[simp] theorem wp_zoom (part : σ → τ) (put : τ → σ → σ) (c : Cmd τ α) : (zoom part put c).wp Q E X s ↔
      c.wp (fun a t => Q a (put t s)) (fun t => E (put t s)) (fun t => X (put t s)) (part s) := by
  unfold wp zoom
  rcases c (part s) with ⟨_ | _ | _, _⟩ <;> exact Iff.rfl

/-- The outcome of a run that is known. -/
theorem wp_of_eq {r : Res α × σ} (h : c s = r) : c.wp Q E X s ↔ Ends Q E X r := by
  rw [wp, h]

theorem wp_of_ok {a : α} {s' : σ} (h : c s = (.ok a, s')) (hQ : Q a s') : c.wp Q E X s := (wp_of_eq h).mpr hQ

theorem wp_mono (h : c.wp Q E X s) (hQ : ∀ a s', Q a s' → Q' a s') (hE : ∀ s', E s' → E' s')
    (hX : ∀ s', X s' → X' s' := by first | exact fun _ h => h | exact fun _ h => h.elim) : c.wp Q' E' X' s := by
  revert h
  unfold wp
  rcases c s with ⟨_ | _ | _, _⟩
  · exact hQ _ _
  · exact hE _
  · exact hX _

theorem wp_imp (h : c.wp Q E X s) (hQ : ∀ a s', Q a s' → Q' a s') : c.wp Q' E X s :=
  wp_mono h hQ fun _ h => h

/-- What two accounts of a run say together. -/
theorem wp_and (h : c.wp Q E X s) (h' : c.wp Q' E' X' s) :
    c.wp (fun a s' => Q a s' ∧ Q' a s') (fun s' => E s' ∧ E' s') (fun s' => X s' ∧ X' s') s := by
  revert h h'
  unfold wp
  rcases c s with ⟨_ | _ | _, _⟩ <;> exact fun h h' => ⟨h, h'⟩

/-- An exact precondition: however the run ends, it ends well if and only if `C`. -/
theorem wp_iff {C : Prop} (h : c.wp (fun a s' => Q a s' ↔ C) (fun s' => E s' ↔ C) (fun s' => X s' ↔ C) s) :
    c.wp Q E X s ↔ C := by
  revert h
  unfold wp
  rcases c s with ⟨_ | _ | _, _⟩ <;> exact fun h => h

theorem no_panic_of_wp (h : c.wp Q E (fun _ => False) s) (e : String) : (c s).1 ≠ .panic e := by
  revert h
  unfold wp
  rcases c s with ⟨_ | _ | _, _⟩ <;> simp [Ends]

/-- Nothing is promised. -/
theorem wp_true (c : Cmd σ α) (s : σ) : c.wp (fun _ _ => True) (fun _ => True) (fun _ => True) s := by
  unfold wp
  rcases c s with ⟨_ | _ | _, _⟩ <;> trivial

/-- Unless it panics, `c` ends in `P`. -/
abbrev endsIn (c : Cmd σ α) (P : σ → Prop) : σ → Prop := c.wp (fun _ => P) P fun _ => True

section EndsIn
variable {c : Cmd σ α} {P P' : σ → Prop}

theorem endsIn_of_eq {r : Res α × σ} (h : c s = r) : c.endsIn P s ↔ Ends (fun _ => P) P (fun _ => True) r := wp_of_eq h

theorem endsIn_mono (h : c.endsIn P s) (hP : ∀ s', P s' → P' s') : c.endsIn P' s :=
  wp_mono h (fun _ => hP) hP

theorem endsIn_and (h : c.endsIn P s) (h' : c.endsIn P' s) : c.endsIn (fun s' => P s' ∧ P' s') s :=
  wp_mono (wp_and h h') (fun _ _ h => h) (fun _ h => h) fun _ _ => trivial

theorem endsIn_congr (h : c.endsIn (fun s' => P s' ↔ P' s') s) : c.endsIn P s ↔ c.endsIn P' s where
  mp hp := endsIn_mono (endsIn_and h hp) fun _ h => h.1.mp h.2
  mpr hp := endsIn_mono (endsIn_and h hp) fun _ h => h.1.mpr h.2

end EndsIn

/-- The loop rule from the middle of a loop: the items of `done` have been visited. -/
theorem wp_forEach_from {Q : Unit → σ → Prop} (I : List ι → σ → Prop) :
    ∀ (rest done : List ι) (s : σ), I done s → (∀ pre x post s', pre ++ x :: post = done ++ rest → I pre s' →
        (body x).wp (fun _ => I (pre ++ [x])) E X s') →
      (∀ s', I (done ++ rest) s' → Q () s') → (forEach rest body).wp Q E X s
  | [], done, s, h, _, hQ => hQ s (by simpa using h)
  | x :: rest, done, s, h, hb, hQ => by
    simp only [forEach, wp_bind]
    refine wp_imp (hb done x rest s rfl h) fun _ s' h' => ?_
    refine wp_forEach_from I rest (done ++ [x]) s' h' (fun pre y post s'' e => ?_) (fun s'' h'' => ?_)
    · exact hb pre y post s'' (by simpa using e)
    · exact hQ s'' (by simpa using h'')

/-- The loop rule. `I done` holds once the items of `done` have been visited. -/
theorem wp_forEach {Q : Unit → σ → Prop} (I : List ι → σ → Prop) (h : I [] s)
    (hb : ∀ pre x post s', pre ++ x :: post = xs → I pre s' → (body x).wp (fun _ => I (pre ++ [x])) E X s')
    (hQ : ∀ s', I xs s' → Q () s') : (forEach xs body).wp Q E X s :=
  wp_forEach_from I xs [] s h (by simpa using hb) (by simpa using hQ)

theorem mem_of_split {pre post : List ι} {x : ι} (h : pre ++ x :: post = xs) : x ∈ xs := by
  rw [← h]
  exact List.mem_append_right _ (.head _)

end Rules

-- proofs use the rules; a run is not to be unfolded
attribute [irreducible] wp

end Cmd
end OpenV
