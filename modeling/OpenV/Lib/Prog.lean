import OpenV.Lib.Cmd

/- Programs over an interface: trees of requests, each continued by the answer it
   gets. A handler runs a program as a command over a state. A contract says over
   another, simpler state when a request may be made and what its answer and its
   effect can be; `ensures` is the weakest precondition of a program under a
   contract. `run_ensures` connects the two: where the handler keeps the contract,
   possibly only for requests that meet a condition, what a program ensures is what
   its runs do. -/
namespace OpenV

/-- A program that makes requests `q : Q` and gets answers in `A q`. -/
inductive Prog (Q : Type) (A : Q → Type) (α : Type) where
  | done (a : α)
  | ask (q : Q) (k : A q → Prog Q A α)

namespace Prog
variable {Q : Type} {A : Q → Type} {α β ι σ τ : Type}

def bind : Prog Q A α → (α → Prog Q A β) → Prog Q A β
  | done a, f => f a
  | ask q k, f => ask q fun r => (k r).bind f

instance : Monad (Prog Q A) where
  pure := done
  bind := bind

theorem bind_assoc {γ : Type} (p : Prog Q A α) (f : α → Prog Q A β) (g : β → Prog Q A γ) :
    p >>= f >>= g = p >>= fun a => f a >>= g := by
  induction p with
  | done a => rfl
  | ask q k ih => exact congrArg (ask q) (funext ih)

/-- A single request. -/
def request (q : Q) : Prog Q A (A q) := ask q done

/-- `if c { p }` -/
def onlyIf (c : Prop) [Decidable c] (p : Prog Q A Unit) : Prog Q A Unit := if c then p else pure ()

/-- `for x in xs { body x }` -/
def forEach : List ι → (ι → Prog Q A Unit) → Prog Q A Unit
  | [], _ => pure ()
  | x :: xs, body => do
    body x
    forEach xs body

/-- A loop that is left early: the value of the first round that has one. -/
def findSome : List ι → (ι → Prog Q A (Option β)) → Prog Q A (Option β)
  | [], _ => pure none
  | x :: xs, body => do
    match ← body x with
    | some b => pure (some b)
    | none => findSome xs body

/-! ## Runs -/

/-- The run of a program under a handler. -/
def run (h : (q : Q) → Cmd σ (A q)) : Prog Q A α → Cmd σ α
  | done a => pure a
  | ask q k => h q >>= fun r => (k r).run h

theorem run_bind (h : (q : Q) → Cmd σ (A q)) (p : Prog Q A α) (f : α → Prog Q A β) :
    (p >>= f).run h = p.run h >>= fun a => (f a).run h := by
  induction p with
  | done a => rfl
  | ask q k ih =>
    funext s
    show Cmd.bind (h q) (fun r => ((k r).bind f).run h) s = Cmd.bind (Cmd.bind (h q) fun r => (k r).run h) _ s
    unfold Cmd.bind
    rcases h q s with ⟨r | e | e, s'⟩
    · exact congrFun (ih r) s'
    · rfl
    · rfl

/-- Every request made in the run from `s` meets `C`. -/
def Meets (h : (q : Q) → Cmd σ (A q)) (C : Q → σ → Prop) : Prog Q A α → σ → Prop
  | done _, _ => True
  | ask q k, s => C q s ∧
    match h q s with
    | (.ok r, s') => (k r).Meets h C s'
    | _ => True

variable {C : Q → σ → Prop} {q : Q} {p : Prog Q A α} {c : Prop} {abs : τ → σ} {I : τ → Prop} {t : τ}
variable {h : (q : Q) → Cmd σ (A q)}

theorem meets_ask {k : A q → Prog Q A α} {s : σ} (hq : C q s) (hk : ∀ r s', (k r).Meets h C s') :
    (ask q k).Meets h C s := by
  unfold Meets
  refine ⟨hq, ?_⟩
  rcases h q s with ⟨r | e | e, s'⟩
  · exact hk r s'
  · trivial
  · trivial

/-- A run can be checked. -/
instance decidableMeets {h : (q : Q) → Cmd σ (A q)} {C : Q → σ → Prop} [∀ q s, Decidable (C q s)] :
    (p : Prog Q A α) → (s : σ) → Decidable (p.Meets h C s)
  | done _, _ => isTrue trivial
  | ask q k, s =>
    match he : h q s with
    | (.ok r, s') =>
      have := decidableMeets (h := h) (C := C) (k r) s'
      decidable_of_iff (C q s ∧ (k r).Meets h C s') (by rw [Meets, he])
    | (.err _, _) => decidable_of_iff (C q s) (by rw [Meets, he]; exact (iff_of_eq (and_true _)).symm)
    | (.panic _, _) => decidable_of_iff (C q s) (by rw [Meets, he]; exact (iff_of_eq (and_true _)).symm)

/-- A program in two parts. -/
theorem meets_bind {f : α → Prog Q A β} {s : σ} :
    (p >>= f).Meets h C s ↔ p.Meets h C s ∧ ∀ a s', p.run h s = (.ok a, s') → (f a).Meets h C s' := by
  show (p.bind f).Meets h C s ↔ _
  induction p generalizing s with
  | done a =>
    refine ⟨fun hf => ⟨trivial, fun a' s' he => ?_⟩, fun hf => hf.2 a s rfl⟩
    cases he
    exact hf
  | ask q k ih =>
    have hrun : (ask q k).run h s = Cmd.bind (h q) (fun r => (k r).run h) s := rfl
    rw [hrun, bind, Meets, Meets, Cmd.bind]
    rcases h q s with ⟨r | e | e, s'⟩
    · exact (and_congr_right fun _ => ih r).trans and_assoc.symm
    · exact ⟨fun hq => ⟨hq, fun _ _ he => by cases he⟩, fun hq => hq.1⟩
    · exact ⟨fun hq => ⟨hq, fun _ _ he => by cases he⟩, fun hq => hq.1⟩

/-- What requests that meet `C` keep, a run whose requests all meet `C` keeps. -/
theorem run_meets {I : σ → Prop}
    (hreq : ∀ q s, I s → C q s → (h q).wp (fun _ s' => I s') (fun _ => False) (fun _ => True) s) {s : σ} (hs : I s)
    (hC : p.Meets h C s) : (p.run h).wp (fun _ s' => I s') (fun _ => False) (fun _ => True) s := by
  induction p generalizing s with
  | done a => exact (Cmd.wp_pure a).mpr hs
  | ask q k ih =>
    rw [run, Cmd.wp_bind]
    unfold Meets at hC
    have hw := hreq q s hs hC.1
    rcases hq : h q s with ⟨r, s'⟩
    rw [Cmd.wp_of_eq hq] at hw ⊢
    rw [hq] at hC
    cases r with
    | ok r => exact ih r hw hC.2
    | err e => exact hw.elim
    | panic e => trivial

/-! ## Requests that can occur -/

/-- Every request of the program satisfies `C`, whatever the answers. -/
def Within (C : Q → Prop) : Prog Q A α → Prop
  | done _ => True
  | ask q k => C q ∧ ∀ r, (k r).Within C

section Within
variable {C : Q → Prop}

theorem Within.pure (a : α) : (Pure.pure a : Prog Q A α).Within C := trivial

theorem Within.request {q : Q} (h : C q) : (Prog.request q : Prog Q A (A q)).Within C := ⟨h, fun _ => trivial⟩

variable {h : (q : Q) → Cmd σ (A q)} {p : Prog Q A α} {I : σ → Prop} {c : Prop}

theorem Within.bind {f : α → Prog Q A β} (hp : p.Within C) (hf : ∀ a, (f a).Within C) : (p >>= f).Within C := by
  induction p with
  | done a => exact hf a
  | ask q k ih => exact ⟨hp.1, fun r => ih r (hp.2 r)⟩

/-- After a request that may fail, where failing ends the program. -/
theorem Within.bindSome {p : Prog Q A (Option α)} {f : Option α → Prog Q A β} (hp : p.Within C)
    (hs : ∀ a, (f (some a)).Within C) (hn : (f none).Within C := by exact .pure _) : (p >>= f).Within C :=
  .bind hp fun r => by cases r with
    | none => exact hn
    | some a => exact hs a

theorem Within.ite [Decidable c] {p' : Prog Q A α} (hp : c → p.Within C) (hp' : ¬c → p'.Within C) :
    (if c then p else p').Within C := by
  by_cases h : c
  · rw [if_pos h]
    exact hp h
  · rw [if_neg h]
    exact hp' h

/-- A condition on which the program returns. -/
theorem Within.early [Decidable c] {a : α} (hp : ¬c → p.Within C) : (if c then Pure.pure a else p).Within C :=
  .ite (fun _ => .pure a) hp

theorem Within.mono {D : Q → Prop} (hCD : ∀ q, C q → D q) (hp : p.Within C) : p.Within D := by
  induction p with
  | done a => trivial
  | ask q k ih => exact ⟨hCD q hp.1, fun r => ih r (hp.2 r)⟩

theorem Within.findSome {body : ι → Prog Q A (Option β)} (hb : ∀ x, (body x).Within C) (xs : List ι) :
    (Prog.findSome xs body).Within C := by
  induction xs with
  | nil => exact Within.pure _
  | cons x xs ih =>
    rw [Prog.findSome]
    exact .bindSome (hb x) (fun _ => .pure _) ih

theorem Within.onlyIf [Decidable c] {p : Prog Q A Unit} (hp : p.Within C) : (Prog.onlyIf c p).Within C :=
  .ite (fun _ => hp) fun _ => .pure _

theorem Within.forEach {body : ι → Prog Q A Unit} (hb : ∀ x, (body x).Within C) (xs : List ι) :
    (Prog.forEach xs body).Within C := by
  induction xs with
  | nil => exact Within.pure _
  | cons x xs ih =>
    rw [Prog.forEach]
    exact .bind (hb x) fun _ => ih

theorem Within.meets {D : Q → σ → Prop} (hD : ∀ q s, C q → D q s) (hp : p.Within C) (s : σ) : p.Meets h D s := by
  induction p generalizing s with
  | done a => trivial
  | ask q k ih => exact meets_ask (hD q s hp.1) fun r s' => ih r (hp.2 r) s'

/-- A program whose requests all return returns. -/
theorem run_returns (hreq : ∀ q s, C q → I s → ∃ r s', h q s = (.ok r, s') ∧ I s') (hp : p.Within C) {s : σ}
    (hs : I s) : ∃ a s', p.run h s = (.ok a, s') ∧ I s' := by
  induction p generalizing s with
  | done a => exact ⟨a, s, rfl, hs⟩
  | ask q k ih =>
    obtain ⟨r, s₁, hr, hs₁⟩ := hreq q s hp.1 hs
    obtain ⟨a, s', ha, hs'⟩ := ih r (hp.2 r) hs₁
    exact ⟨a, s', (Cmd.bind_ok hr).trans ha, hs'⟩

/-- What requests in `C` keep, a program that makes no others keeps. -/
theorem run_within (hreq : ∀ q s, C q → I s → (h q).wp (fun _ s' => I s') (fun _ => False) (fun _ => True) s)
    (hp : p.Within C) {s : σ} (hs : I s) : (p.run h).wp (fun _ s' => I s') (fun _ => False) (fun _ => True) s :=
  run_meets (fun q s hs hq => hreq q s hq hs) hs (hp.meets (fun _ _ hq => hq) s)

end Within

/-! ## Contracts -/

/-- When a request may be made, and what may come of it. -/
structure Contract (Q : Type) (A : Q → Type) (σ : Type) where
  pre : Q → σ → Prop
  post : (q : Q) → σ → A q → σ → Prop

variable {K : Contract Q A σ} {P P' : α → σ → Prop} {s : σ}

/-- Under the contract, the program ends in `P`, whatever the answers. -/
def ensures (K : Contract Q A σ) : Prog Q A α → (α → σ → Prop) → σ → Prop
  | done a, P, s => P a s
  | ask q k, P, s => K.pre q s ∧ ∀ r s', K.post q s r s' → (k r).ensures K P s'

@[simp] theorem ensures_pure (a : α) : (pure a : Prog Q A α).ensures K P s ↔ P a s := Iff.rfl

theorem ensures_request {P : A q → σ → Prop} :
    (request q : Prog Q A (A q)).ensures K P s ↔ K.pre q s ∧ ∀ r s', K.post q s r s' → P r s' := Iff.rfl

@[simp] theorem ensures_bind {P : β → σ → Prop} (p : Prog Q A α) (f : α → Prog Q A β) :
    (p >>= f).ensures K P s ↔ p.ensures K (fun a s' => (f a).ensures K P s') s := by
  induction p generalizing s with
  | done a => exact Iff.rfl
  | ask q k ih => exact and_congr_right fun _ => forall_congr' fun r => forall_congr' fun _ => imp_congr_right fun _ => ih r

theorem ensures_mono (h : p.ensures K P s) (hP : ∀ a s', P a s' → P' a s') : p.ensures K P' s := by
  induction p generalizing s with
  | done a => exact hP a s h
  | ask q k ih => exact ⟨h.1, fun r s' hr => ih r (h.2 r s' hr)⟩

/-- What two accounts of a program say together. -/
theorem ensures_and (h : p.ensures K P s) (h' : p.ensures K P' s) :
    p.ensures K (fun a s' => P a s' ∧ P' a s') s := by
  induction p generalizing s with
  | done a => exact ⟨h, h'⟩
  | ask q k ih => exact ⟨h.1, fun r s' hr => ih r (h.2 r s' hr) (h'.2 r s' hr)⟩

@[simp] theorem ensures_ite [Decidable c] (p p' : Prog Q A α) :
    (if c then p else p').ensures K P s ↔ (c → p.ensures K P s) ∧ (¬c → p'.ensures K P s) := by
  by_cases h : c <;> simp [h]

theorem ensures_onlyIf [Decidable c] {p : Prog Q A Unit} {P : Unit → σ → Prop} (h : c → p.ensures K P s)
    (h' : ¬c → P () s) : (onlyIf c p).ensures K P s := by
  unfold onlyIf
  by_cases hc : c
  · rw [if_pos hc]
    exact h hc
  · rw [if_neg hc]
    exact h' hc

section
variable (I : List ι → σ → Prop)
variable {body : ι → Prog Q A Unit}

/-- The rule for loops from the middle of a loop: the items of `seen` have been visited. -/
theorem ensures_forEach_from {P : Unit → σ → Prop} : ∀ (rest seen : List ι) {s : σ}, I seen s →
      (∀ pre x post s', pre ++ x :: post = seen ++ rest → I pre s' → (body x).ensures K (fun _ => I (pre ++ [x])) s') →
      (∀ s', I (seen ++ rest) s' → P () s') → (forEach rest body).ensures K P s
  | [], seen, s, h, _, hP => hP s (by simpa using h)
  | x :: rest, seen, s, h, hb, hP => by
    rw [forEach, ensures_bind]
    refine ensures_mono (hb seen x rest s rfl h) fun _ s' h' => ?_
    refine ensures_forEach_from rest (seen ++ [x]) h' (fun pre y post s'' e => ?_) fun s'' h'' => ?_
    · exact hb pre y post s'' (by simpa using e)
    · exact hP s'' (by simpa using h'')

/-- The rule for loops. `I seen` holds once the items of `seen` have been visited. -/
theorem ensures_forEach {P : Unit → σ → Prop} {xs : List ι} (h : I [] s)
    (hb : ∀ pre x post s', pre ++ x :: post = xs → I pre s' → (body x).ensures K (fun _ => I (pre ++ [x])) s')
    (hP : ∀ s', I xs s' → P () s') : (forEach xs body).ensures K P s :=
  ensures_forEach_from I xs [] h hb hP

end

/-- The rule for searches: the loop is left early, and as long as it goes on nothing changes and `R` holds of what it
has passed. -/
theorem ensures_findSome {P : Option β → σ → Prop} {body : ι → Prog Q A (Option β)} (R : ι → Prop) : ∀ {xs : List ι},
    (∀ x ∈ xs, (body x).ensures K (fun r s' => match r with | some b => P (some b) s' | none => s' = s ∧ R x) s) →
      ((∀ x ∈ xs, R x) → P none s) → (findSome xs body).ensures K P s
  | [], _, hP => hP (by simp)
  | x :: xs, hb, hP => by
    rw [findSome, ensures_bind]
    refine ensures_mono (hb x (.head _)) fun r s' h => ?_
    cases r with
    | some b => exact h
    | none =>
      rw [h.1]
      exact ensures_findSome R (fun y hy => hb y (.tail _ hy)) fun hall => hP (List.forall_mem_cons.mpr ⟨h.2, hall⟩)

-- a loop is reasoned about by its rule, never by going through its items
attribute [irreducible] forEach findSome

/-- Where the handler keeps the contract on requests that meet `C`, a run whose requests all meet `C` does what the
program ensures. -/
theorem run_ensures {h : (q : Q) → Cmd τ (A q)} {C : Q → τ → Prop} (hreq : ∀ q t, I t → C q t → K.pre q (abs t) →
      (h q).wp (fun r t' => I t' ∧ K.post q (abs t) r (abs t')) (fun _ => False) (fun _ => True) t) (hI : I t)
    (hp : p.ensures K P (abs t)) (hC : p.Meets h C t) :
    (p.run h).wp (fun a t' => I t' ∧ P a (abs t')) (fun _ => False) (fun _ => True) t := by
  induction p generalizing t with
  | done a => exact (Cmd.wp_pure a).mpr ⟨hI, hp⟩
  | ask q k ih =>
    rw [run, Cmd.wp_bind]
    unfold Meets at hC
    obtain ⟨hCq, hC'⟩ := hC
    have hw := hreq q t hI hCq hp.1
    rcases hq : h q t with ⟨r, t'⟩
    rw [Cmd.wp_of_eq hq] at hw ⊢
    rw [hq] at hC'
    cases r with
    | ok r => exact ih r hw.1 (hp.2 r _ hw.2) hC'
    | err e => exact hw.elim
    | panic e => trivial

/-! ## Contracts for some requests only -/

/-- The contract under which only requests in `C` may be made. -/
def Contract.only (K : Contract Q A σ) (C : Q → Prop) : Contract Q A σ where
  pre q s := C q ∧ K.pre q s
  post := K.post

theorem Within.ensures_only {C : Q → Prop} (hp : p.Within C) (h : p.ensures K P s) : p.ensures (K.only C) P s := by
  induction p generalizing s with
  | done a => exact h
  | ask q k ih => exact ⟨⟨hp.1, h.1⟩, fun r s' hr => ih r (hp.2 r) (h.2 r s' hr)⟩

/-- Where requests in `C` return, a program that makes no others returns. -/
theorem run_only {h : (q : Q) → Cmd τ (A q)} {C : Q → Prop} {D : Q → τ → Prop}
    (hreq : ∀ q t, I t → D q t → K.pre q (abs t) →
      (h q).wp (fun r t' => I t' ∧ K.post q (abs t) r (abs t')) (fun _ => False) (fun _ => True) t)
    (hret : ∀ q t, C q → I t → ∃ r t', h q t = (.ok r, t')) (hI : I t) (hp : p.ensures (K.only C) P (abs t))
    (hD : p.Meets h D t) : ∃ a t', p.run h t = (.ok a, t') ∧ I t' ∧ P a (abs t') := by
  induction p generalizing t with
  | done a => exact ⟨a, t, rfl, hI, hp⟩
  | ask q k ih =>
    unfold Meets at hD
    obtain ⟨r, t₁, hq⟩ := hret q t hp.1.1 hI
    have hw := hreq q t hI hD.1 hp.1.2
    rw [Cmd.wp_of_eq hq] at hw
    rw [hq] at hD
    obtain ⟨a, t', ha, hrest⟩ := ih r hw.1 (hp.2 r _ hw.2) hD.2
    exact ⟨a, t', (Cmd.bind_ok hq).trans ha, hrest⟩

end Prog
end OpenV
