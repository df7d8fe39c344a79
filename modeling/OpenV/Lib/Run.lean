import OpenV.Lib.Cmd

/- Runs: commands chosen one after the other from a family, until one of them
   panics. `Along` states a condition on the steps of a run, which may speak of
   the state before and after each; `runAll_inv` is the rule for invariants of
   runs whose steps all meet a condition. -/
namespace OpenV

open Cmd
variable {σ ι : Type}

/-- The state a list of commands leads to, unless one of them panics. -/
def runAll (exec : ι → Cmd σ Unit) : List ι → σ → Option σ
  | [], s => some s
  | i :: is, s =>
    match exec i s with
    | (.panic _, _) => none
    | (_, s') => runAll exec is s'

/-- Every step of the run satisfies `C`. -/
def Along (exec : ι → Cmd σ Unit) (C : ι → σ → σ → Prop) : List ι → σ → Prop
  | [], _ => True
  | i :: is, s =>
    match exec i s with
    | (.panic _, _) => True
    | (_, s') => C i s s' ∧ Along exec C is s'

section Steps
variable {exec : ι → Cmd σ Unit} {C : ι → σ → σ → Prop} {i : ι} {is : List ι} {s s' : σ}

/-- A first step that is known. -/
theorem along_cons (h : exec i s = (.ok (), s')) : Along exec C (i :: is) s ↔ C i s s' ∧ Along exec C is s' := by
  rw [Along, h]

theorem runAll_cons (h : exec i s = (.ok (), s')) : runAll exec (i :: is) s = runAll exec is s' := by
  rw [runAll, h]

/-- A condition on a run is one on the end of its first step. -/
theorem along_iff_endsIn : Along exec C (i :: is) s ↔ (exec i).endsIn (fun s' => C i s s' ∧ Along exec C is s') s := by
  unfold endsIn
  rcases hi : exec i s with ⟨_ | _ | _, _⟩ <;> rw [wp_of_eq hi, Along, hi] <;> exact Iff.rfl

/-- A run goes on where its first step ends. -/
theorem runAll_goes_on (h : runAll exec (i :: is) s = some s') :
    ∃ s₁, (∀ P : σ → Prop, (exec i).endsIn P s → P s₁) ∧ runAll exec is s₁ = some s' := by
  unfold runAll at h
  rcases hi : exec i s with ⟨_ | _ | _, s₁⟩ <;> rw [hi] at h
  · exact ⟨s₁, fun P hP => (wp_of_eq hi).mp hP, h⟩
  · exact ⟨s₁, fun P hP => (wp_of_eq hi).mp hP, h⟩
  · cases h

/-- A run whose steps meet `C` follows a fold over its commands, if every such step does. -/
theorem runAll_sim {τ : Type} {f : τ → ι → τ} (R : σ → τ → Prop)
    (hstep : ∀ i s a, R s a → (exec i).endsIn (fun s' => C i s s' → R s' (f a i)) s) :
    ∀ {is : List ι} {s : σ} {a : τ}, R s a → runAll exec is s = some s' → Along exec C is s → R s' (is.foldl f a)
  | [], s, a, h, hrun, _ => by
    cases hrun
    exact h
  | i :: is, s, a, h, hrun, halong => by
    obtain ⟨s₁, hend, hrun⟩ := runAll_goes_on hrun
    have hC := hend _ (along_iff_endsIn.mp halong)
    rw [List.foldl_cons]
    exact runAll_sim R hstep (hend _ (hstep i s a h) hC.1) hrun hC.2

/-- What every step meeting `C` preserves holds at the end of a run. -/
theorem runAll_inv (I : σ → Prop) (hstep : ∀ i s, I s → (exec i).endsIn (fun s' => C i s s' → I s') s) :
    I s → runAll exec is s = some s' → Along exec C is s → I s' :=
  runAll_sim (f := fun a _ => a) (a := ()) (fun s _ => I s) fun i s _ => hstep i s

/-- A weaker condition. -/
theorem Along.mono {C' : ι → σ → σ → Prop} (hC : ∀ i s s', C i s s' → C' i s s') :
    ∀ {is : List ι} {s : σ}, Along exec C is s → Along exec C' is s
  | [], _, _ => trivial
  | _ :: _, _, h => along_iff_endsIn.mpr (endsIn_mono (along_iff_endsIn.mp h) fun _ h => ⟨hC _ _ _ h.1, h.2.mono hC⟩)

/-- A condition on the commands alone. -/
theorem along_of_forall {C : ι → Prop} :
    ∀ {is : List ι}, (∀ i ∈ is, C i) → ∀ s : σ, Along exec (fun i _ _ => C i) is s
  | [], _, _ => trivial
  | i :: is, h, s => by
    have hrest : ∀ j ∈ is, C j := fun j hj => h j (.tail _ hj)
    exact along_iff_endsIn.mpr (endsIn_mono (wp_true _ _) fun s' _ => ⟨h i (.head _), along_of_forall hrest s'⟩)

theorem along_true (is : List ι) (s : σ) : Along exec (fun _ _ _ => True) is s :=
  along_of_forall (fun _ _ => trivial) s

/-- What every step preserves holds at the end of a run. -/
theorem runAll_keeps (I : σ → Prop) (hstep : ∀ i s, I s → (exec i).endsIn I s) (h : I s)
    (hrun : runAll exec is s = some s') : I s' :=
  runAll_inv I (fun i s h => endsIn_mono (hstep i s h) fun _ h _ => h) h hrun (along_true is s)

end Steps

/-- `C` is what a step needs to reach the invariant `I`, and without it the step ends outside `P`. -/
def KeepsIff (I P : σ → Prop) (C : Prop) (s : σ) : Prop := (C → I s) ∧ (P s → C)

theorem KeepsIff.of {I P : σ → Prop} {C : Prop} {s : σ} (h : I s) (hC : C) : KeepsIff I P C s :=
  ⟨fun _ => h, fun _ => hC⟩

/-- A step that needs nothing. -/
theorem wp_keeps {I P : σ → Prop} {c : Cmd σ Unit} {s : σ} (h : c.endsIn I s) : c.endsIn (KeepsIff I P True) s :=
  endsIn_mono h fun _ h => .of h trivial

section Exact
variable {exec : ι → Cmd σ Unit} {C : ι → σ → Prop} {is : List ι} {s : σ}
variable {I : σ → Prop} {P : ι → σ → σ → Prop}

/-- `C` is what a step from `I` needs to have the property `P`, which leads back
to `I`. -/
theorem along_iff_rel (hstep : ∀ i s, I s → (exec i).endsIn (fun s' => (C i s ↔ P i s s') ∧ (P i s s' → I s')) s) :
    ∀ {is : List ι} {s : σ}, I s → (Along exec (fun i s _ => C i s) is s ↔ Along exec P is s)
  | [], _, _ => Iff.rfl
  | i :: is, s, h => by
    rw [along_iff_endsIn, along_iff_endsIn]
    refine endsIn_congr (endsIn_mono (hstep i s h) fun s₁ ⟨hC, hI⟩ => ?_)
    rw [hC]
    exact and_congr_right fun hp => along_iff_rel hstep (hI hp)

/-- If every step keeps `I` exactly under its condition, and leaves `P`, which `I` implies, otherwise, then the
conditions are exactly what a run needs to stay in `P` throughout. -/
theorem along_iff_of {P : σ → Prop} (hP : ∀ s, I s → P s)
    (hstep : ∀ i s, I s → (exec i).endsIn (KeepsIff I P (C i s)) s) (h : I s) :
    Along exec (fun i s _ => C i s) is s ↔ Along exec (fun _ _ s' => P s') is s :=
  along_iff_rel (fun i s h => endsIn_mono (hstep i s h) fun _ h =>
    ⟨⟨fun hC => hP _ (h.1 hC), h.2⟩, fun hp => h.1 (h.2 hp)⟩) h

/-- If `C` is exactly what a step needs to keep `I`, it is what a run needs to keep `I` throughout. -/
theorem along_iff (hstep : ∀ i s, I s → (exec i).endsIn (fun s' => C i s ↔ I s') s) (h : I s) :
    Along exec (fun i s _ => C i s) is s ↔ Along exec (fun _ _ s' => I s') is s :=
  along_iff_of (fun _ h => h) (fun i s h => endsIn_mono (hstep i s h) fun _ e => ⟨e.mp, e.mpr⟩) h

/-- One direction for a property of steps: from `I`, a step that meets `C` has the property `P` and leads back to
`I`. -/
theorem Along.of_inv (I : σ → Prop) (hstep : ∀ i s, I s → C i s → (exec i).endsIn (fun s' => I s' ∧ P i s s') s) :
    ∀ {is : List ι} {s : σ}, I s → Along exec (fun i s _ => C i s) is s → Along exec P is s
  | [], _, _, _ => trivial
  | i :: is, s, h, ha => by
    rw [along_iff_endsIn] at ha ⊢
    by_cases hC : C i s
    · exact endsIn_mono (endsIn_and (hstep i s h hC) ha) fun s₁ h₁ => ⟨h₁.1.2, Along.of_inv I hstep h₁.1.1 h₁.2.2⟩
    · -- the step panics
      exact endsIn_mono ha fun s₁ h₁ => absurd h₁.1 hC

end Exact

section Ends
variable {o : Option σ} {Q : σ → Prop}

/-- A run goes through, and all that is asked of its end follows from that. -/
theorem exists_of_isSome (h : o.isSome = true) (hQ : ∀ s, o = some s → Q s) : ∃ s, o = some s ∧ Q s := by
  obtain ⟨s, hs⟩ := Option.isSome_iff_exists.mp h
  exact ⟨s, hs, hQ s hs⟩

/-- A run goes through to a state with a property that can be checked. -/
theorem exists_of_any (P : σ → Bool) (h : o.any P = true) (hQ : ∀ s, P s = true → Q s) : ∃ s, o = some s ∧ Q s := by
  obtain ⟨s, hs, hP⟩ := (Option.any_eq_true _ _).mp h
  exact ⟨s, hs, hQ s hP⟩

end Ends

end OpenV
