import Mathlib

/- Queues whose members know where they are: `members t` lists who is in the queue
   `t`, `place q` says in which queue `q` is. The two agree, so that nobody is in
   two queues or twice in one; joining, leaving and emptying a queue keep that when
   both sides are updated. -/
namespace OpenV
variable {κ α : Type}

structure Indexed (members : κ → List α) (place : α → Option κ) : Prop where
  nodup : ∀ t, (members t).Nodup
  mem : ∀ t q, q ∈ members t ↔ place q = some t

namespace Indexed
variable {members members' : κ → List α} {place place' : α → Option κ} {t : κ} {q : α}

section
variable (h : Indexed members place)
include h

theorem congr (hm : members' = members) (hp : place' = place) : Indexed members' place' := by
  rw [hm, hp]
  exact h

/-- `q`, which is nowhere, joins the end of the queue `t`. -/
theorem join (hq : place q = none) (ht : members' t = members t ++ [q]) (hm : ∀ u, u ≠ t → members' u = members u)
    (hq' : place' q = some t) (hp : ∀ r, r ≠ q → place' r = place r) : Indexed members' place' := by
  have hnot : ∀ u, q ∉ members u := by
    intro u hmem
    have := (h.mem u q).mp hmem
    rw [hq] at this
    cases this
  constructor
  · intro u
    by_cases hu : u = t
    · rw [hu, ht]
      exact List.nodup_append_comm.mp (List.nodup_cons.mpr ⟨hnot t, h.nodup t⟩)
    · rw [hm u hu]
      exact h.nodup u
  · intro u r
    by_cases hr : r = q
    · subst hr
      rw [hq']
      by_cases hu : u = t
      · subst hu
        rw [ht]
        simp
      · rw [hm u hu]
        simp [hnot u, Ne.symm hu]
    · rw [hp r hr, ← h.mem u r]
      by_cases hu : u = t
      · subst hu
        rw [ht]
        simp [hr]
      · rw [hm u hu]

/-- Those in `L` leave the queue `t`. -/
theorem leave (L : α → Prop) (hL : ∀ q, L q → place q = some t)
    (ht : (members' t).Nodup ∧ ∀ r, r ∈ members' t ↔ ¬L r ∧ r ∈ members t) (hm : ∀ u, u ≠ t → members' u = members u)
    (hin : ∀ q, L q → place' q = none) (hp : ∀ q, ¬L q → place' q = place q) : Indexed members' place' := by
  constructor
  · intro u
    by_cases hu : u = t
    · rw [hu]
      exact ht.1
    · rw [hm u hu]
      exact h.nodup u
  · intro u r
    by_cases hr : L r
    · rw [hin r hr]
      refine ⟨fun hmem => ?_, nofun⟩
      by_cases hu : u = t
      · subst hu
        exact absurd hr ((ht.2 r).mp hmem).1
      · rw [hm u hu, h.mem, hL r hr] at hmem
        exact absurd (Option.some.inj hmem).symm hu
    · rw [hp r hr, ← h.mem u r]
      by_cases hu : u = t
      · subst hu
        rw [ht.2]
        exact and_iff_right hr
      · rw [hm u hu]

theorem quit (hq : place q = some t) (ht : (members' t).Nodup ∧ ∀ r, r ∈ members' t ↔ r ≠ q ∧ r ∈ members t)
    (hm : ∀ u, u ≠ t → members' u = members u) (hq' : place' q = none) (hp : ∀ r, r ≠ q → place' r = place r) :
    Indexed members' place' :=
  h.leave (· = q) (fun _ e => e ▸ hq) ht hm (fun _ e => e ▸ hq') hp

/-- The first `n` leave. -/
theorem drain (n : Nat) (ht : members' t = (members t).drop n) (hm : ∀ u, u ≠ t → members' u = members u)
    (hin : ∀ q ∈ (members t).take n, place' q = none) (hp : ∀ q, q ∉ (members t).take n → place' q = place q) :
    Indexed members' place' := by
  have hsplit : (members t).take n ++ (members t).drop n = members t := List.take_append_drop n _
  have hnd := h.nodup t
  rw [← hsplit, List.nodup_append] at hnd
  refine h.leave (· ∈ (members t).take n) (fun q hq => (h.mem t q).mp (List.mem_of_mem_take hq)) ?_ hm hin hp
  rw [ht]
  refine ⟨hnd.2.1, fun q => ⟨fun hq => ⟨fun hq' => hnd.2.2 q hq' q hq rfl, List.mem_of_mem_drop hq⟩, fun ⟨hq, hq'⟩ => ?_⟩⟩
  rw [← hsplit, List.mem_append] at hq'
  exact hq'.resolve_left hq

/-- All leave. -/
theorem clear (ht : members' t = []) (hm : ∀ u, u ≠ t → members' u = members u)
    (hin : ∀ q ∈ members t, place' q = none) (hp : ∀ q, q ∉ members t → place' q = place q) :
    Indexed members' place' :=
  h.leave (· ∈ members t) (fun q => (h.mem t q).mp) (by simp [ht]) hm hin hp

end

end Indexed
end OpenV
