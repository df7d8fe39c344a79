import Mathlib

/- A finite map kept in numbered slots, each free or holding a key with its value. As
   long as no key stands in two slots, filling a free slot under a new key and clearing a
   slot are insertion and removal. -/
namespace OpenV.Slots

open Function
variable {κ β : Type} {f g : Nat → Option (κ × β)} {n m i : Nat} {key : κ} {b : β}

/-- No key stands in two slots. -/
def Distinct (f : Nat → Option (κ × β)) : Prop := ∀ i j e e', f i = some e → f j = some e' → e.1 = e'.1 → i = j

/-- What is in the first `n` slots, in their order. -/
def listed (n : Nat) (f : Nat → Option (κ × β)) : List (κ × β) := (List.range n).filterMap f

theorem mem_listed (hn : ∀ k, n ≤ k → f k = none) {e : κ × β} : e ∈ listed n f ↔ ∃ k, f k = some e := by
  unfold listed
  rw [List.mem_filterMap]
  refine ⟨fun ⟨k, _, hk⟩ => ⟨k, hk⟩, fun ⟨k, hk⟩ => ⟨k, List.mem_range.mpr ?_, hk⟩⟩
  by_contra hge
  rw [hn k (by omega)] at hk
  cases hk

theorem nodup_listed (h : Distinct f) (n : Nat) : ((listed n f).map (·.1)).Nodup := by
  unfold listed
  rw [List.map_filterMap]
  refine List.Nodup.filterMap (fun i j k hi hj => ?_) List.nodup_range
  obtain ⟨e, he, rfl⟩ := Option.map_eq_some_iff.mp hi
  obtain ⟨e', he', hk⟩ := Option.map_eq_some_iff.mp hj
  exact h i j e e' he he' hk.symm

/-- A slot gets a key that no slot has, or loses what it has. -/
theorem Distinct.put {r : Option (κ × β)} (hg : ∀ k, g k = if k = i then r else f k) (h : Distinct f)
    (hr : ∀ e, r = some e → ∀ k b, f k ≠ some (e.1, b)) : Distinct g := by
  intro j k e e' hj hk he
  rw [hg] at hj hk
  split_ifs at hj hk with hji hki hki
  · rw [hji, hki]
  · exact absurd hk (by rw [show e' = (e.1, e'.2) from Prod.ext he.symm rfl]; exact hr e hj k e'.2)
  · exact absurd hj (by rw [show e = (e'.1, e.2) from Prod.ext he rfl]; exact hr e' hk j e.2)
  · exact h j k e e' hj hk he

variable [DecidableEq κ]

/-- The value under a key in the first `n` slots. -/
def find (n : Nat) (f : Nat → Option (κ × β)) (key : κ) : Option β := (listed n f).lookup key

theorem find_eq_some (h : Distinct f) (hn : ∀ k, n ≤ k → f k = none) : find n f key = some b ↔ ∃ k, f k = some (key, b) := by
  rw [← mem_listed hn, find, List.lookup_eq_some_iff]
  constructor
  · rintro ⟨l, r, hl, _⟩
    rw [hl]
    exact List.mem_append_right _ (.head _)
  · intro hm
    obtain ⟨l, r, hl⟩ := List.append_of_mem hm
    refine ⟨l, r, hl, fun p hp => ?_⟩
    -- a key before this one would stand there twice
    have hnd := nodup_listed h n
    rw [hl, List.map_append, List.nodup_append] at hnd
    rw [bne_iff_ne]
    exact fun he => hnd.2.2 p.1 (List.mem_map_of_mem hp) key (.head _) he.symm

theorem find_eq_none (h : Distinct f) (hn : ∀ k, n ≤ k → f k = none) : find n f key = none ↔ ∀ k b, f k ≠ some (key, b) := by
  rw [Option.eq_none_iff_forall_ne_some]
  refine ⟨fun hnone k b hk => hnone b ((find_eq_some h hn).mpr ⟨k, hk⟩), fun hall b hb => ?_⟩
  obtain ⟨k, hk⟩ := (find_eq_some h hn).mp hb
  exact hall k b hk

section Changes
variable {r : Option (κ × β)} (hg : ∀ k, g k = if k = i then r else f k)
include hg

/-- Insertion. -/
theorem find_insert (h : Distinct f) (hn : ∀ k, n ≤ k → f k = none) (hm : ∀ k, m ≤ k → g k = none) (hr : r = some (key, b))
    (hfree : f i = none) (hnew : ∀ k b, f k ≠ some (key, b)) : find m g = update (find n f) key (some b) := by
  have hd : Distinct g := h.put hg fun e he => by
    rw [hr] at he
    cases he
    exact hnew
  funext key'
  by_cases hkey : key' = key
  · subst hkey
    rw [update_self, find_eq_some hd hm]
    exact ⟨i, by rw [hg, if_pos rfl, hr]⟩
  · rw [update_of_ne hkey]
    refine Option.ext fun b' => ?_
    rw [find_eq_some hd hm, find_eq_some h hn]
    refine exists_congr fun k => ?_
    rw [hg]
    split_ifs with hk
    · rw [hk, hfree, hr]
      exact ⟨fun he => absurd (Prod.mk.inj (Option.some.inj he)).1.symm hkey, nofun⟩
    · exact Iff.rfl

/-- Removal. -/
theorem find_remove (h : Distinct f) (hn : ∀ k, n ≤ k → f k = none) (hm : ∀ k, m ≤ k → g k = none) (hr : r = none)
    (hold : f i = some (key, b)) : find m g = update (find n f) key none := by
  have hd : Distinct g := h.put hg fun e he => by
    rw [hr] at he
    cases he
  funext key'
  by_cases hkey : key' = key
  · subst hkey
    rw [update_self, find_eq_none hd hm]
    intro k b' hk
    rw [hg, hr] at hk
    split_ifs at hk with hki
    exact hki (h k i _ _ hk hold rfl)
  · rw [update_of_ne hkey]
    refine Option.ext fun b' => ?_
    rw [find_eq_some hd hm, find_eq_some h hn]
    refine exists_congr fun k => ?_
    rw [hg]
    split_ifs with hk
    · rw [hk, hold, hr]
      exact ⟨nofun, fun he => absurd (Prod.mk.inj (Option.some.inj he)).1.symm hkey⟩
    · exact Iff.rfl

end Changes
end OpenV.Slots
