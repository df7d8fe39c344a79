import OpenV.Sched.Rendezvous

/- The run queue: a process is queued at most once, and not while it runs.
   `Unique` is kept by taking a process off the queue onto a hart, by taking it
   off the hart, and by queueing one that is neither queued nor running. -/
namespace OpenV.Sched

open Function

namespace Os

/-- The process is queued or on a hart. -/
def Runnable (s : Os) (q : Pid) : Prop := q ∈ s.queued ∨ ∃ h, s.current h = q

end Os

/-- Each process is in one place only. -/
structure Unique (s : Os) : Prop where
  nodup : s.queued.Nodup
  apart : ∀ h, s.current h ≠ 0 → s.current h ∉ s.queued
  one : ∀ h h', s.current h = s.current h' → s.current h ≠ 0 → h = h'
  zero : s.proc 0 = none

namespace Unique
variable {s : Os} {q : Pid} {h : Nat} {f : Proc → Proc}

theorem setProc (hu : Unique s) (q : Pid) (f : Proc → Proc) : Unique (s.setProc q f) :=
  { hu with
    zero := by
      rw [Os.proc_setProc]
      split
      · rw [hu.zero]
        rfl
      · exact hu.zero }

theorem enqueue (hu : Unique s) (hq : ¬s.Runnable q) : Unique (s.enqueue q) where
  nodup := by
    rw [Os.queued_enqueue]
    exact List.nodup_append_comm.mp (List.nodup_cons.mpr ⟨fun e => hq (.inl e), hu.nodup⟩)
  apart h h0 := by
    rw [Os.queued_enqueue]
    intro hmem
    rcases List.mem_append.mp hmem with e | e
    · exact hu.apart h h0 e
    · exact hq (.inr ⟨h, List.mem_singleton.mp e⟩)
  one := hu.one
  zero := hu.zero

theorem current_leave (s : Os) (h h' : Nat) : (s.leave h).current h' = if h' = h then 0 else s.current h' := by
  simp only [Os.leave, update_apply]

theorem leave (hu : Unique s) (h : Nat) : Unique (s.leave h) where
  nodup := hu.nodup
  apart h' h0 := by
    rw [current_leave] at h0 ⊢
    split at h0
    · exact absurd rfl h0
    · rename_i hne
      rw [if_neg hne]
      exact hu.apart h' h0
  one h1 h2 e h0 := by
    rw [current_leave] at e h0
    split at h0
    · exact absurd rfl h0
    · rename_i hne
      rw [if_neg hne, current_leave] at e
      split at e
      · exact absurd e h0
      · exact hu.one h1 h2 e h0
  zero := hu.zero

/-- Leaving the hart takes its process out of everything. -/
theorem runnable_leave (hu : Unique s) (h0 : s.current h ≠ 0) (hq : q ≠ 0) :
    (s.leave h).Runnable q ↔ q ≠ s.current h ∧ s.Runnable q := by
  constructor
  · rintro (e | ⟨h', e⟩)
    · refine ⟨?_, .inl e⟩
      rintro rfl
      exact hu.apart h h0 e
    · rw [current_leave] at e
      split at e
      · exact absurd e.symm hq
      · rename_i hne
        refine ⟨?_, .inr ⟨h', e⟩⟩
        rintro rfl
        exact hne (hu.one h' h e (e ▸ h0))
  · rintro ⟨hne, e | ⟨h', e⟩⟩
    · exact .inl e
    · refine .inr ⟨h', ?_⟩
      rw [current_leave, if_neg, e]
      rintro rfl
      exact hne e.symm

theorem runnable_enqueue : (s.enqueue q).Runnable p ↔ p = q ∨ s.Runnable p := by
  unfold Os.Runnable
  rw [Os.queued_enqueue, List.mem_append, List.mem_singleton]
  tauto

theorem congr {s' : Os} (hu : Unique s) (hq : s'.queued = s.queued) (hc : s'.current = s.current)
    (h0 : s'.proc 0 = s.proc 0) : Unique s' := by
  obtain ⟨h1, h2, h3, h4⟩ := hu
  rw [← hq] at h1 h2
  rw [← hc] at h2 h3
  exact ⟨h1, h2, h3, h0.trans h4⟩

theorem preempt (hu : Unique s) (h pc : Nat) : Unique (s.preempt h pc) := by
  unfold Os.preempt
  split
  · exact hu
  · rename_i h0
    have hu' : Unique (((s.leave h).enqueue (s.current h)).setProc (s.current h) (Proc.interrupted pc)) := by
      refine ((hu.leave h).enqueue fun e => ?_).setProc _ _
      exact ((hu.runnable_leave h0 h0).mp e).1 rfl
    refine hu'.congr ?_ rfl rfl
    simp

theorem runnable_preempt (hq : q ≠ 0) (pc : Nat) : (s.preempt h pc).Runnable q ↔ s.Runnable q := by
  unfold Os.preempt
  split
  · exact Iff.rfl
  · constructor
    · rintro (e | ⟨h', e⟩)
      · have e' : q ∈ s.queued ++ [s.current h] := by simpa using e
        rcases List.mem_append.mp e' with e' | e'
        · exact .inl e'
        · exact .inr ⟨h, (List.mem_singleton.mp e').symm⟩
      · rw [current_leave] at e
        split at e
        · exact absurd e.symm hq
        · exact .inr ⟨h', e⟩
    · rintro (e | ⟨h', e⟩)
      · exact .inl (by simpa using .inl e)
      · by_cases hh : h' = h
        · exact .inl (by simpa using .inr (hh ▸ e.symm))
        · refine .inr ⟨h', ?_⟩
          rw [current_leave, if_neg hh]
          exact e

/-- The queue without the entry that `schedule` takes. -/
theorem erase_queued {l : List (Int × Pid)} {x : Int × Pid} (hn : (l.map Prod.snd).Nodup) (hx : x ∈ l) :
    ((l.erase x).map Prod.snd).Nodup ∧ ∀ q, q ∈ (l.erase x).map Prod.snd ↔ q ≠ x.2 ∧ q ∈ l.map Prod.snd := by
  have hp : (l.map Prod.snd).Perm (x.2 :: (l.erase x).map Prod.snd) := (List.perm_cons_erase hx).map Prod.snd
  obtain ⟨hnot, hrest⟩ := List.nodup_cons.mp (hp.nodup_iff.mp hn)
  refine ⟨hrest, fun q => ?_⟩
  rw [hp.mem_iff, List.mem_cons]
  constructor
  · intro e
    refine ⟨?_, .inr e⟩
    rintro rfl
    exact hnot e
  · rintro ⟨hne, e | e⟩
    · exact absurd e hne
    · exact e

theorem dispatch (hu : Unique s) (h : Nat) : Unique (s.dispatch h) := by
  unfold Os.dispatch
  split
  swap
  · exact hu
  split
  · exact hu
  rename_i x hx
  obtain ⟨hnodup, hmem⟩ := erase_queued hu.nodup (nextEntry_mem hx)
  have hdrop : Unique { s with runQueue := s.runQueue.erase x } :=
    ⟨hnodup, fun h' h0 e => hu.apart h' h0 ((hmem _).mp e).2, hu.one, hu.zero⟩
  dsimp only
  split
  · exact hdrop
  rename_i p hp
  split
  · exact hdrop
  · have hxq : x.2 ∈ s.queued := List.mem_map_of_mem (nextEntry_mem hx)
    have hother : ∀ h', s.current h' ≠ 0 → s.current h' ≠ x.2 := fun h' h0 e => hu.apart h' h0 (e ▸ hxq)
    have hx0 : x.2 ≠ 0 := by
      intro e
      have hp' : s.proc x.2 = some p := hp
      rw [e, hu.zero] at hp'
      cases hp'
    have hcur : ∀ h', update s.current h x.2 h' = if h' = h then x.2 else s.current h' := fun h' =>
      update_apply ..
    refine ⟨hnodup, fun h' h0 e => ?_, fun h1 h2 e h0 => ?_, (hdrop.setProc x.2 _).zero⟩
    · have e' := (hmem _).mp e
      dsimp only at h0 e'
      rw [hcur] at h0 e'
      split at e'
      · exact e'.1 rfl
      · rename_i hne
        rw [if_neg hne] at h0
        exact hu.apart h' h0 e'.2
    · dsimp only at h0 e
      rw [hcur] at h0
      rw [hcur, hcur] at e
      split at e
      · rename_i e1
        split at e
        · rename_i e2
          exact e1.trans e2.symm
        · exact absurd e.symm (hother h2 (e ▸ hx0))
      · rename_i e1
        rw [if_neg e1] at h0
        split at e
        · exact absurd e (hother h1 h0)
        · exact hu.one h1 h2 e h0

/-- Nobody that is alive is forgotten. -/
theorem runnable_dispatch {p : Proc} (hu : Unique s) (hp : s.proc q = some p) (hz : ProcState.isZombie p.state = false) :
    (s.dispatch h).Runnable q ↔ s.Runnable q := by
  have hq0 : q ≠ 0 := by
    rintro rfl
    rw [hu.zero] at hp
    cases hp
  unfold Os.dispatch
  split
  swap
  · exact Iff.rfl
  rename_i hidle
  split
  · exact Iff.rfl
  rename_i x hx
  obtain ⟨-, hmem⟩ := erase_queued hu.nodup (nextEntry_mem hx)
  have hxq : x.2 ∈ s.queued := List.mem_map_of_mem (nextEntry_mem hx)
  dsimp only
  -- a thrown away entry is not that of `q`
  have hdrop : x.2 ≠ q → (Os.Runnable { s with runQueue := s.runQueue.erase x } q ↔ s.Runnable q) := by
    intro hne
    exact or_congr_left ((hmem q).trans (and_iff_right hne.symm))
  split
  · rename_i hnone
    refine hdrop ?_
    rintro rfl
    have hnone' : s.proc x.2 = none := hnone
    rw [hp] at hnone'
    cases hnone'
  rename_i p' hp'
  split
  · rename_i hz'
    refine hdrop ?_
    rintro rfl
    have hp'' : s.proc x.2 = some p' := hp'
    rw [hp] at hp''
    cases hp''
    exact absurd (hz.symm.trans hz') Bool.false_ne_true
  · have hcur : ∀ h', update s.current h x.2 h' = if h' = h then x.2 else s.current h' := fun h' =>
      update_apply ..
    constructor
    · rintro (e | ⟨h', e⟩)
      · exact .inl ((hmem q).mp e).2
      · dsimp only at e
        rw [hcur] at e
        split at e
        · exact .inl (e ▸ hxq)
        · exact .inr ⟨h', e⟩
    · intro e
      by_cases hxe : q = x.2
      · refine .inr ⟨h, ?_⟩
        dsimp only
        rw [hcur, if_pos rfl, hxe]
      · rcases e with e | ⟨h', e⟩
        · exact .inl ((hmem q).mpr ⟨hxe, e⟩)
        · refine .inr ⟨h', ?_⟩
          dsimp only
          rw [hcur, if_neg, e]
          rintro rfl
          exact hq0 (e.symm.trans hidle)

end Unique
end OpenV.Sched
