/-
Rings of keyed points: a sorted list that is read from the first point at or after a key and then
round to the start. What the walk meets on a ring with some points left out is what it meets on the
whole ring, without those points.
-/
import Mathlib.Data.List.Rotate
import Mathlib.Data.List.Sort

namespace Praxis.Lib

open List

variable {κ β γ : Type} [LinearOrder κ]

/-- The points in the order in which a walk from the key meets them. -/
def clockwise (key : κ) (ring : List (κ × β)) : List (κ × β) :=
  ring.filter (fun point => decide (key ≤ point.1)) ++ ring.filter fun point => decide (point.1 < key)

/-- What a binary search for the key may answer: a position of the key, or the position to insert it at. -/
def Located (ring : List (κ × β)) (key : κ) (i : Nat) : Prop :=
  (∃ point, ring[i]? = some point ∧ point.1 = key) ∨
  i ≤ ring.length ∧ (∀ point ∈ ring.take i, point.1 < key) ∧ ∀ point ∈ ring.drop i, key < point.1

variable {key : κ} {ring : List (κ × β)}

theorem filter_clockwise (p : κ × β → Bool) : (clockwise key ring).filter p = clockwise key (ring.filter p) := by
  rw [clockwise, filter_append, clockwise]
  simp only [filter_filter, Bool.and_comm]

/-- Points may be renamed as long as they stay where they are. -/
theorem filterMap_clockwise {f : κ × β → Option (κ × γ)} (hf : ∀ point renamed, f point = some renamed → renamed.1 = point.1) :
    (clockwise key ring).filterMap f = clockwise key (ring.filterMap f) := by
  have hfilter : ∀ p : κ → Bool, (ring.filter fun point => p point.1).filterMap f
      = (ring.filterMap f).filter fun point => p point.1 := by
    intro p
    rw [filterMap_filter, filter_filterMap]
    refine filterMap_congr fun point _ => ?_
    cases h : f point with
    | none => simp
    | some renamed => cases hp : p point.1 <;> simp [Option.filter, hf point renamed h, hp]
  rw [clockwise, filterMap_append, clockwise, hfilter fun k => decide (key ≤ k), hfilter fun k => decide (k < key)]

theorem mem_clockwise {point : κ × β} : point ∈ clockwise key ring ↔ point ∈ ring := by
  simp only [clockwise, mem_append, mem_filter, decide_eq_true_eq, ← and_or_left, le_or_gt, and_true]

/-- Below the located position the points are before the key, from it on they are not. -/
theorem Located.split (hsorted : ring.Pairwise fun a b => a.1 < b.1) {i : Nat} (hi : Located ring key i) :
    i ≤ ring.length ∧ (∀ point ∈ ring.take i, point.1 < key) ∧ ∀ point ∈ ring.drop i, key ≤ point.1 := by
  rcases hi with ⟨found, hfound, rfl⟩ | ⟨hle, hbefore, hafter⟩
  · obtain ⟨hlt, rfl⟩ := List.getElem?_eq_some_iff.1 hfound
    have hdrop : ring.drop i = ring[i] :: ring.drop (i + 1) := List.drop_eq_getElem_cons hlt
    have hsplit := hsorted
    rw [← List.take_append_drop i ring, List.pairwise_append, hdrop] at hsplit
    refine ⟨hlt.le, fun point hpoint => hsplit.2.2 point hpoint _ (.head _), fun point hpoint => ?_⟩
    rcases List.mem_cons.1 (hdrop ▸ hpoint) with rfl | hpoint
    · exact le_rfl
    · exact (List.rel_of_pairwise_cons hsplit.2.1 hpoint).le
  · exact ⟨hle, hbefore, fun point hpoint => (hafter point hpoint).le⟩

/-- Reading round from the located position is the walk from the key. -/
theorem rotate_eq_clockwise (hsorted : ring.Pairwise fun a b => a.1 < b.1) {i : Nat} (hi : Located ring key i) :
    ring.rotate (i % ring.length) = clockwise key ring := by
  obtain ⟨hle, hbefore, hafter⟩ := hi.split hsorted
  rw [rotate_mod, rotate_eq_drop_append_take hle, clockwise]
  have hring := take_append_drop i ring
  congr 1
  · nth_rewrite 2 [← hring]
    rw [filter_append, filter_eq_nil_iff.2, nil_append, filter_eq_self.2]
    · exact fun point hpoint => decide_eq_true (hafter point hpoint)
    · exact fun point hpoint => by simpa using hbefore point hpoint
  · nth_rewrite 2 [← hring]
    rw [filter_append, filter_eq_self.2, filter_eq_nil_iff.2, append_nil]
    · exact fun point hpoint => by simpa using hafter point hpoint
    · exact fun point hpoint => decide_eq_true (hbefore point hpoint)

theorem ring_eq_of_perm {ring' : List (κ × β)} (h : ring.Pairwise fun a b => a.1 < b.1)
    (h' : ring'.Pairwise fun a b => a.1 < b.1) (hperm : ring.Perm ring') : ring = ring' :=
  hperm.eq_of_pairwise (fun _ _ _ _ hab hba => absurd hab hba.not_gt) h h'

end Praxis.Lib
