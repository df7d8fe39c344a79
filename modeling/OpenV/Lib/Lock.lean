import OpenV.Lib.Cmd

/- Locks that must not be taken twice. A hart holds a list of locks beside the
   state it works on; taking a lock it holds already is a panic. `locked m c`
   runs `c` under `m` and gives the lock back on every way out of `c`.

   Two rules of discipline are developed. `Ordered n c`: `c` takes locks of rank
   `n` and above only, inner ones of higher rank than outer ones; such a command
   never panics, and runs the same whatever lower locks are held. `Watched n c`:
   the same, except that `c` may also take one particular lock `m₀` at any
   point, and that whenever it does so it leaves a mark in a log. So a hart that
   holds `m₀` runs `c` as usual when the run of `c` alone leaves no mark, and
   panics when it leaves one. -/
namespace OpenV

open Cmd

structure Hart (L σ : Type) where
  held : List L
  val : σ

namespace Hart
variable {L σ α β ι γ : Type}

def read : Cmd (Hart L σ) σ := fun h => (.ok h.val, h)

def write (f : σ → σ) : Cmd (Hart L σ) Unit := fun h => (.ok (), ⟨h.held, f h.val⟩)

/-- `{ let guard = m.lock(); c }` -/
def locked [DecidableEq L] (msg : String) (m : L) (c : Cmd (Hart L σ) α) : Cmd (Hart L σ) α := fun h =>
  if m ∈ h.held then (.panic msg, h)
  else match c ⟨m :: h.held, h.val⟩ with
    | (.ok a, h') => (.ok a, ⟨h'.held.erase m, h'.val⟩)
    | (.err e, h') => (.err e, ⟨h'.held.erase m, h'.val⟩)
    | (.panic e, h') => (.panic e, h')

/-- The run of `c` by a hart that holds nothing. -/
def alone (c : Cmd (Hart L σ) α) (s : σ) : Res α × σ := ((c ⟨[], s⟩).1, (c ⟨[], s⟩).2.val)

/-- An outcome seen by a hart that holds the locks `held`. -/
def under (held : List L) (r : Res α × σ) : Res α × Hart L σ := (r.1, ⟨held, r.2⟩)

/-- Under the locks `held`, `c` runs as it runs alone. -/
def Same (c : Cmd (Hart L σ) α) (held : List L) (s : σ) : Prop := c ⟨held, s⟩ = under held (alone c s)

/-- A run of `c` by a hart that holds nothing does not panic. -/
def Calm (c : Cmd (Hart L σ) α) (s : σ) : Prop := ∀ e, (alone c s).1 ≠ .panic e

section Run
variable {msg : String} {m : L} {c : Cmd (Hart L σ) α} {f : α → Cmd (Hart L σ) β} {held : List L} {s s' : σ}
  {a : α} {e : String}

theorem alone_of_run {r : Res α × σ} (h : c ⟨[], s⟩ = under [] r) : alone c s = r := by
  rw [alone, h]
  rfl

theorem same_run (hs : Same c [] s) : c ⟨[], s⟩ = (.ok a, ⟨[], s'⟩) ↔ alone c s = (.ok a, s') := by
  rw [hs, under]
  simp [Prod.ext_iff]

theorem alone_bind_ok (hs : Same c [] s) (ha : alone c s = (.ok a, s')) : alone (c >>= f) s = alone (f a) s' := by
  rw [Same, ha] at hs
  rw [alone, bind_ok hs]
  rfl

theorem alone_bind_err (hs : Same c [] s) (ha : alone c s = (.err e, s')) : alone (c >>= f) s = (.err e, s') := by
  rw [Same, ha] at hs
  rw [alone, bind_err hs]

variable [DecidableEq L]

/-- A lock that is free is given back. -/
theorem locked_run (msg : String) (hm : m ∉ held) (hs : Same c (m :: held) s) (hc : Calm c s) :
    locked msg m c ⟨held, s⟩ = under held (alone c s) := by
  rw [Same] at hs
  simp only [locked, hm, hs, under]
  rcases ha : alone c s with ⟨_ | _ | e, _⟩
  · simp
  · simp
  · exact absurd (by rw [ha]) (hc e)

theorem locked_held (hm : m ∈ held) : locked msg m c ⟨held, s⟩ = (.panic msg, ⟨held, s⟩) := by
  simp [locked, hm]

theorem locked_panic (hm : m ∉ held) (hc : (c ⟨m :: held, s⟩).1 = .panic e) :
    (locked msg m c ⟨held, s⟩).1 = .panic e := by
  simp only [locked, hm]
  revert hc
  rcases c ⟨m :: held, s⟩ with ⟨_ | _ | _, _⟩ <;> intro hc <;> cases hc
  rfl

end Run

/-! ## Weakest preconditions -/

section Wp
variable {msg : String} {m : L} {Q : α → Hart L σ → Prop} {E X : Hart L σ → Prop} {h : Hart L σ}

@[simp] theorem wp_read {Q : σ → Hart L σ → Prop} : (read : Cmd (Hart L σ) σ).wp Q E X h ↔ Q h.val h := by
  rw [wp_of_eq rfl]
  exact Iff.rfl

@[simp] theorem wp_write {Q : Unit → Hart L σ → Prop} (f : σ → σ) :
    (write f : Cmd (Hart L σ) Unit).wp Q E X h ↔ Q () ⟨h.held, f h.val⟩ := by
  rw [wp_of_eq rfl]
  exact Iff.rfl

variable {c : Cmd (Hart L σ) α}

theorem wp_locked_held [DecidableEq L] (hm : m ∈ h.held) : (locked msg m c).wp Q E X h ↔ X h := by
  rw [wp_of_eq (show locked msg m c h = (.panic msg, h) by simp [locked, hm])]
  exact Iff.rfl

theorem wp_locked_free [DecidableEq L] (hm : m ∉ h.held) :
    (locked msg m c).wp Q E X h ↔ c.wp (fun a h' => Q a ⟨h'.held.erase m, h'.val⟩)
      (fun h' => E ⟨h'.held.erase m, h'.val⟩) X ⟨m :: h.held, h.val⟩ := by
  have hl : locked msg m c h = match c ⟨m :: h.held, h.val⟩ with
      | (.ok a, h') => (.ok a, ⟨h'.held.erase m, h'.val⟩)
      | (.err e, h') => (.err e, ⟨h'.held.erase m, h'.val⟩)
      | (.panic e, h') => (.panic e, h') := by simp only [locked, hm, if_false]
  rw [wp_of_eq hl, wp_of_eq rfl]
  rcases c ⟨m :: h.held, h.val⟩ with ⟨_ | _ | _, _⟩ <;> exact Iff.rfl

/-- A run whose every end decides `C` panics if and only if `C` fails. -/
theorem calm_iff_of_wp {s : σ} {C : Prop} (hw : c.wp (fun _ _ => C) (fun _ => C) (fun _ => ¬C) ⟨[], s⟩) :
    Calm c s ↔ C := by
  rcases hc : c ⟨[], s⟩ with ⟨a | e | e, h'⟩ <;> rw [wp_of_eq hc] at hw <;>
    simp only [Calm, alone, hc]
  · exact ⟨fun _ => hw, fun _ => nofun⟩
  · exact ⟨fun _ => hw, fun _ => nofun⟩
  · exact ⟨fun h => absurd rfl (h e), fun h => absurd h hw⟩

end Wp

/-! ## Runs from no lock -/

/-- A run from no lock that does not panic holds no lock at its end. -/
def Tidy (c : Cmd (Hart L σ) α) : Prop :=
  ∀ s, c.wp (fun _ h => h.held = []) (fun h => h.held = []) (fun _ => True) ⟨[], s⟩

section Tidy
variable {c : Cmd (Hart L σ) α} {f : α → Cmd (Hart L σ) β} {s : σ}

theorem Tidy.pure (a : α) : Tidy (Pure.pure a : Cmd (Hart L σ) α) := fun _ => by simp

theorem Tidy.read : Tidy (read : Cmd (Hart L σ) σ) := fun _ => by simp

theorem Tidy.fail (e : String) : Tidy (Cmd.fail e : Cmd (Hart L σ) α) := fun _ => by simp

theorem Tidy.bind (hc : Tidy c) (hf : ∀ a, Tidy (f a)) : Tidy (c >>= f) := by
  intro s
  rw [wp_bind]
  refine wp_imp (hc s) fun a h e => ?_
  obtain ⟨held, s'⟩ := h
  cases e
  exact hf a s'

theorem Tidy.ite {p : Prop} [Decidable p] {d : Cmd (Hart L σ) α} (hc : Tidy c) (hd : Tidy d) :
    Tidy (if p then c else d) := by
  by_cases h : p <;> simpa [h]

theorem Tidy.forEach {body : ι → Cmd (Hart L σ) Unit} (hb : ∀ x, Tidy (body x)) :
    ∀ xs : List ι, Tidy (forEach xs body)
  | [] => .pure ()
  | x :: xs => .bind (hb x) fun _ => .forEach hb xs

/-- A sequence does not panic if neither part does, the second from where the first ends. -/
theorem calm_bind (hc : Tidy c) : Calm (c >>= f) s ↔
    Calm c s ∧ ∀ a s', c ⟨[], s⟩ = (.ok a, ⟨[], s'⟩) → Calm (f a) s' := by
  have ht := hc s
  rcases hr : c ⟨[], s⟩ with ⟨a | e | e, held, s'⟩ <;> rw [wp_of_eq hr] at ht
  · obtain rfl : held = [] := ht
    simp only [Calm, alone, bind_ok hr, hr]
    refine ⟨fun h => ⟨nofun, fun b s'' e => ?_⟩, fun h => h.2 a s' rfl⟩
    cases e
    exact h
  · simp only [Calm, alone, bind_err hr, hr]
    exact ⟨fun _ => ⟨nofun, nofun⟩, fun _ => nofun⟩
  · have hp : (c ⟨[], s⟩).1 = .panic e := by rw [hr]
    simp only [Calm, alone, bind_panic hp, hp]
    exact ⟨fun h => absurd rfl (h e), fun h => absurd rfl (h.1 e)⟩

end Tidy

/-! ## Locks taken in order -/

section Ordered
variable (rank : L → Nat)

def Below (n : Nat) (held : List L) : Prop := ∀ m ∈ held, rank m < n

def Ordered (n : Nat) (c : Cmd (Hart L σ) α) : Prop :=
  ∀ s, Calm c s ∧ ∀ held, Below rank n held → Same c held s

variable {rank} {n k : Nat} {msg : String} {m : L} {c : Cmd (Hart L σ) α} {f : α → Cmd (Hart L σ) β}
  {held : List L} {s : σ}

theorem Below.nil : Below rank n [] := by simp [Below]

theorem Below.mono (h : Below rank n held) (hk : n ≤ k) : Below rank k held :=
  fun m hm => Nat.lt_of_lt_of_le (h m hm) hk

theorem Below.cons (h : Below rank n held) (hm : n ≤ rank m) : Below rank (rank m + 1) (m :: held) := by
  intro q hq
  rcases List.mem_cons.mp hq with rfl | hq
  · exact Nat.lt_succ_self _
  · exact Nat.lt_succ_of_lt (Nat.lt_of_lt_of_le (h q hq) hm)

theorem Below.not_mem (h : Below rank n held) (hm : n ≤ rank m) : m ∉ held :=
  fun hq => absurd (h m hq) (Nat.not_lt.mpr hm)

theorem Ordered.le (h : Ordered rank k c) (hk : Nat.ble n k = true) : Ordered rank n c :=
  fun s => ⟨(h s).1, fun held hb => (h s).2 held (hb.mono (Nat.le_of_ble_eq_true hk))⟩

theorem Ordered.pure (a : α) : Ordered rank n (Pure.pure a : Cmd (Hart L σ) α) :=
  fun _ => ⟨nofun, fun _ _ => rfl⟩

theorem Ordered.fail (e : String) : Ordered rank n (Cmd.fail e : Cmd (Hart L σ) α) :=
  fun _ => ⟨nofun, fun _ _ => rfl⟩

theorem Ordered.read : Ordered rank n (read : Cmd (Hart L σ) σ) := fun _ => ⟨nofun, fun _ _ => rfl⟩

theorem Ordered.write (g : σ → σ) : Ordered rank n (write g : Cmd (Hart L σ) Unit) :=
  fun _ => ⟨nofun, fun _ _ => rfl⟩

theorem Ordered.bind (hc : Ordered rank n c) (hf : ∀ a, Ordered rank n (f a)) : Ordered rank n (c >>= f) := by
  intro s
  have hs := (hc s).2 [] .nil
  rcases ha : alone c s with ⟨a | e | e, s'⟩
  · rw [Calm, alone_bind_ok hs ha]
    refine ⟨((hf a) s').1, fun held hb => ?_⟩
    have h1 := (hc s).2 held hb
    rw [Same, ha] at h1
    rw [Same, alone_bind_ok hs ha, bind_ok h1]
    exact ((hf a) s').2 held hb
  · rw [Calm, alone_bind_err hs ha]
    refine ⟨nofun, fun held hb => ?_⟩
    have h1 := (hc s).2 held hb
    rw [Same, ha] at h1
    rw [Same, alone_bind_err hs ha, bind_err h1]
    rfl
  · exact absurd (by rw [ha]) ((hc s).1 e)

variable {p : Prop} {d : Cmd (Hart L σ) α} {x : Option β}

theorem Ordered.ite [Decidable p] (hc : p → Ordered rank n c) (hd : ¬p → Ordered rank n d) :
    Ordered rank n (if p then c else d) := by
  by_cases h : p
  · simpa [h] using hc h
  · simpa [h] using hd h

theorem Ordered.elim {e : β → Cmd (Hart L σ) α} (hd : Ordered rank n d) (he : ∀ y, Ordered rank n (e y)) :
    Ordered rank n (x.elim d e) := by
  cases x with
  | none => exact hd
  | some y => exact he y

theorem Ordered.onlyIf [Decidable p] {c : Cmd (Hart L σ) Unit} (hc : Ordered rank n c) :
    Ordered rank n (onlyIf p c) :=
  .ite (fun _ => hc) fun _ => .pure ()

theorem Ordered.forSome {c : β → Cmd (Hart L σ) Unit} (hc : ∀ y, Ordered rank n (c y)) :
    Ordered rank n (forSome x c) :=
  .elim (.pure ()) hc

theorem Ordered.require [Decidable p] {e : String} : Ordered rank n (require p e : Cmd (Hart L σ) Unit) :=
  .ite (fun _ => .pure ()) fun _ => .fail e

/-- The rule for a lock; for given ranks the side condition is `rfl`. -/
theorem Ordered.locked [DecidableEq L] (hb : Nat.ble n (rank m) = true) (hc : Ordered rank (rank m + 1) c) :
    Ordered rank n (locked msg m c) := by
  intro s
  have hm := Nat.le_of_ble_eq_true hb
  have run {held : List L} (hb : Below rank n held) := locked_run msg (hb.not_mem hm)
    ((hc s).2 _ (hb.cons hm)) (hc s).1
  have ha := alone_of_run (run .nil)
  refine ⟨by rw [Calm, ha]; exact (hc s).1, fun held hb => ?_⟩
  rw [Same, ha]
  exact run hb

theorem Ordered.forEach {body : ι → Cmd (Hart L σ) Unit} (hb : ∀ x, Ordered rank n (body x)) :
    ∀ xs : List ι, Ordered rank n (forEach xs body)
  | [] => .pure ()
  | x :: xs => .bind (hb x) fun _ => .forEach hb xs

theorem Ordered.wp {Q : α → Hart L σ → Prop} {E X : Hart L σ → Prop} (hc : Ordered rank n c)
    (hb : Below rank n held) (hQ : ∀ a s', Q a ⟨held, s'⟩) (hE : ∀ s', E ⟨held, s'⟩) : c.wp Q E X ⟨held, s⟩ := by
  rw [wp_of_eq ((hc s).2 held hb)]
  rcases ha : alone c s with ⟨a | e | e, s'⟩
  · exact hQ a s'
  · exact hE s'
  · exact absurd (by rw [ha]) ((hc s).1 e)

theorem calm_bind_ordered {f : α → Cmd (Hart L σ) β} (hc : Tidy c) (hf : ∀ a, Ordered rank n (f a)) :
    Calm (c >>= f) s ↔ Calm c s := by
  rw [calm_bind hc, and_iff_left]
  exact fun a s' _ => (hf a s').1

theorem Ordered.tidy (hc : Ordered rank n c) : Tidy c :=
  fun _ => hc.wp .nil (fun _ _ => rfl) fun _ => rfl

end Ordered

/-! ## Locks taken in order, but for one -/

section Watched
variable (rank : L → Nat) (m₀ : L) (log : σ → List γ)

/-- `c` takes `m₀` only when it leaves a mark in the log. -/
structure Watched (n : Nat) (c : Cmd (Hart L σ) α) : Prop where
  calm : ∀ s, Calm c s
  grows : ∀ s, log s <+: log (alone c s).2
  free : ∀ s held, Below rank n held → m₀ ∉ held → Same c held s
  quiet : ∀ s held, Below rank n held → m₀ ∈ held → log (alone c s).2 = log s → Same c held s
  loud : ∀ s held, Below rank n held → m₀ ∈ held → log (alone c s).2 ≠ log s →
    ∃ e, (c ⟨held, s⟩).1 = .panic e

variable {rank m₀ log} {n k : Nat} {msg : String} {m : L} {c : Cmd (Hart L σ) α} {f : α → Cmd (Hart L σ) β}
  {held : List L} {s : σ}

theorem Watched.le (h : Watched rank m₀ log k c) (hk : Nat.ble n k = true) : Watched rank m₀ log n c where
  calm := h.calm
  grows := h.grows
  free s held hb := h.free s held (hb.mono (Nat.le_of_ble_eq_true hk))
  quiet s held hb := h.quiet s held (hb.mono (Nat.le_of_ble_eq_true hk))
  loud s held hb := h.loud s held (hb.mono (Nat.le_of_ble_eq_true hk))

/-- A command that leaves the log alone and keeps the order. -/
theorem Watched.of_ordered (h : Ordered rank n c) (hl : ∀ s, log (alone c s).2 = log s) :
    Watched rank m₀ log n c where
  calm s := (h s).1
  grows s := (hl s).symm ▸ List.prefix_refl (log s)
  free s held hb _ := (h s).2 held hb
  quiet s held hb _ _ := (h s).2 held hb
  loud s _ _ _ hne := absurd (hl s) hne

theorem Watched.pure (a : α) : Watched rank m₀ log n (Pure.pure a : Cmd (Hart L σ) α) :=
  .of_ordered (.pure a) fun _ => rfl

theorem Watched.read : Watched rank m₀ log n (read : Cmd (Hart L σ) σ) :=
  .of_ordered .read fun _ => rfl

theorem Watched.write {g : σ → σ} (hg : ∀ s, log (g s) = log s) :
    Watched rank m₀ log n (write g : Cmd (Hart L σ) Unit) :=
  .of_ordered (.write g) hg

theorem Watched.bind (hc : Watched rank m₀ log n c) (hf : ∀ a, Watched rank m₀ log n (f a)) :
    Watched rank m₀ log n (c >>= f) := by
  have hs (s) := hc.free s [] .nil (by simp)
  -- the run of `c` alone either goes on with `f a` from `s'` or ends there
  have out (s) : (∃ a s', alone c s = (.ok a, s') ∧ alone (c >>= f) s = alone (f a) s') ∨
      ∃ e s', alone c s = (.err e, s') ∧ alone (c >>= f) s = (.err e, s') := by
    rcases ha : alone c s with ⟨a | e | e, s'⟩
    · exact .inl ⟨a, s', rfl, alone_bind_ok (hs s) ha⟩
    · exact .inr ⟨e, s', rfl, alone_bind_err (hs s) ha⟩
    · exact absurd (by rw [ha]) (hc.calm s e)
  have grows_ok {s s' : σ} {a : α} (ha : alone c s = (.ok a, s')) :
      log s <+: log s' ∧ log s' <+: log (alone (f a) s').2 :=
    ⟨by simpa [ha] using hc.grows s, (hf a).grows s'⟩
  constructor
  case calm =>
    intro s
    rcases out s with ⟨a, s', _, h⟩ | ⟨e, s', _, h⟩ <;> rw [Calm, h]
    · exact (hf a).calm s'
    · exact nofun
  case grows =>
    intro s
    rcases out s with ⟨a, s', ha, h⟩ | ⟨e, s', ha, h⟩ <;> rw [h]
    · exact (grows_ok ha).1.trans (grows_ok ha).2
    · simpa [ha] using hc.grows s
  case free =>
    intro s held hb hm
    have h1 := hc.free s held hb hm
    rw [Same] at h1 ⊢
    rcases out s with ⟨a, s', ha, h⟩ | ⟨e, s', ha, h⟩ <;> rw [ha] at h1 <;> rw [h]
    · rw [bind_ok h1]
      exact (hf a).free s' held hb hm
    · rw [bind_err h1]
      rfl
  case quiet =>
    intro s held hb hm hq
    rcases out s with ⟨a, s', ha, h⟩ | ⟨e, s', ha, h⟩ <;> rw [h] at hq
    · -- no mark at the end, so none after the first step
      obtain ⟨g1, g2⟩ := grows_ok ha
      have e1 : log s' = log s := (g1.eq_of_length_le (hq ▸ g2).length_le).symm
      have h1 := hc.quiet s held hb hm (by rw [ha]; exact e1)
      rw [Same, ha] at h1
      rw [Same, h, bind_ok h1]
      exact (hf a).quiet s' held hb hm (by rw [hq, e1])
    · have h1 := hc.quiet s held hb hm (by rw [ha]; exact hq)
      rw [Same, ha] at h1
      rw [Same, h, bind_err h1]
      rfl
  case loud =>
    intro s held hb hm hq
    by_cases h1 : log (alone c s).2 = log s
    · have hr := hc.quiet s held hb hm h1
      rw [Same] at hr
      rcases out s with ⟨a, s', ha, h⟩ | ⟨e, s', ha, h⟩ <;> rw [ha] at hr h1 <;> rw [h] at hq
      · rw [bind_ok hr]
        exact (hf a).loud s' held hb hm (by rw [h1]; exact hq)
      · exact absurd h1 hq
    · obtain ⟨e, he⟩ := hc.loud s held hb hm h1
      exact ⟨e, bind_panic he⟩

variable {p : Prop} {d : Cmd (Hart L σ) α} {x : Option β}

theorem Watched.ite [Decidable p] (hc : p → Watched rank m₀ log n c) (hd : ¬p → Watched rank m₀ log n d) :
    Watched rank m₀ log n (if p then c else d) := by
  by_cases h : p
  · simpa [h] using hc h
  · simpa [h] using hd h

theorem Watched.elim {e : β → Cmd (Hart L σ) α} (hd : Watched rank m₀ log n d)
    (he : ∀ y, Watched rank m₀ log n (e y)) : Watched rank m₀ log n (x.elim d e) := by
  cases x with
  | none => exact hd
  | some y => exact he y

theorem Watched.onlyIf [Decidable p] {c : Cmd (Hart L σ) Unit} (hc : Watched rank m₀ log n c) :
    Watched rank m₀ log n (onlyIf p c) :=
  .ite (fun _ => hc) fun _ => .pure ()

theorem Watched.forSome {c : β → Cmd (Hart L σ) Unit} (hc : ∀ y, Watched rank m₀ log n (c y)) :
    Watched rank m₀ log n (forSome x c) :=
  .elim (.pure ()) hc

theorem Watched.forEach {body : ι → Cmd (Hart L σ) Unit} (hb : ∀ x, Watched rank m₀ log n (body x)) :
    ∀ xs : List ι, Watched rank m₀ log n (forEach xs body)
  | [] => .pure ()
  | x :: xs => .bind (hb x) fun _ => .forEach hb xs

theorem Watched.locked [DecidableEq L] (hb : Nat.ble n (rank m) = true) (hd : decide (m = m₀) = false)
    (hc : Watched rank m₀ log (rank m + 1) c) : Watched rank m₀ log n (locked msg m c) := by
  have hm := Nat.le_of_ble_eq_true hb
  have hne : m ≠ m₀ := of_decide_eq_false hd
  have run {held : List L} {s : σ} (hb : Below rank n held) (hs : Same c (m :: held) s) :=
    locked_run msg (hb.not_mem hm) hs (hc.calm s)
  have cons_mem {held : List L} : m₀ ∈ m :: held ↔ m₀ ∈ held := by simp [hne.symm]
  have ha (s) : alone (Hart.locked msg m c) s = alone c s :=
    alone_of_run (run .nil (hc.free s _ (Below.nil.cons hm) (by simp [hne.symm])))
  constructor
  case calm => exact fun s => by rw [Calm, ha]; exact hc.calm s
  case grows => exact fun s => by rw [ha]; exact hc.grows s
  case free =>
    intro s held hb hq
    rw [Same, ha]
    exact run hb (hc.free s _ (hb.cons hm) (by rwa [cons_mem]))
  case quiet =>
    intro s held hb hq hl
    rw [ha] at hl
    rw [Same, ha]
    exact run hb (hc.quiet s _ (hb.cons hm) (cons_mem.mpr hq) hl)
  case loud =>
    intro s held hb hq hl
    rw [ha] at hl
    obtain ⟨e, he⟩ := hc.loud s _ (hb.cons hm) (cons_mem.mpr hq) hl
    exact ⟨e, locked_panic (hb.not_mem hm) he⟩

section
variable (hc : Watched rank m₀ log (rank m₀ + 1) c)
include hc

/-- Under `m₀` alone, what `c` does depends on whether it leaves a mark. -/
theorem Watched.locked_self [DecidableEq L] (msg : String) (s : σ) :
    log (alone c s).2 = log s ∧ Hart.locked msg m₀ c ⟨[], s⟩ = under [] (alone c s) ∨
    log (alone c s).2 ≠ log s ∧ ∃ e, (Hart.locked msg m₀ c ⟨[], s⟩).1 = .panic e := by
  have hb : Below rank (rank m₀ + 1) [m₀] := by simp [Below]
  by_cases hl : log (alone c s).2 = log s
  · exact .inl ⟨hl, locked_run msg (by simp) (hc.quiet s _ hb (by simp) hl) (hc.calm s)⟩
  · obtain ⟨e, he⟩ := hc.loud s _ hb (by simp) hl
    exact .inr ⟨hl, e, locked_panic (by simp) he⟩

theorem Watched.tidy_locked [DecidableEq L] : Tidy (Hart.locked msg m₀ c) := by
  intro s
  rcases hc.locked_self msg s with ⟨_, h⟩ | ⟨_, e, h⟩
  · rw [wp_of_eq h]
    rcases ha : alone c s with ⟨_ | _ | _, _⟩
    · exact rfl
    · exact rfl
    · trivial
  · rcases hr : Hart.locked msg m₀ c ⟨[], s⟩ with ⟨_ | _ | _, _⟩ <;> rw [hr] at h <;> cases h
    rw [wp_of_eq hr]
    trivial

theorem Watched.calm_locked [DecidableEq L] : Calm (Hart.locked msg m₀ c) s ↔ log (alone c s).2 = log s := by
  rcases hc.locked_self msg s with ⟨hl, h⟩ | ⟨hl, e, h⟩
  · refine ⟨fun _ => hl, fun _ e => ?_⟩
    rw [alone, h]
    exact hc.calm s e
  · exact ⟨fun hn => absurd h (hn e), fun h' => absurd h' hl⟩

end

end Watched
end Hart
end OpenV
