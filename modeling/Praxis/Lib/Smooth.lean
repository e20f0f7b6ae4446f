/-
Smooth weighted round robin over integers. In each turn every candidate's score is raised by its
weight, a candidate with the greatest score is picked and its score is lowered by the sum of all
weights. The scores keep their sum, none falls to minus the sum of the weights, and so they are
back at zero after as many turns as the weights sum to.
-/
import Mathlib.Algebra.Order.BigOperators.Ring.Finset
import Mathlib.Tactic.Linarith

namespace Praxis.Lib.Smooth

open Finset

section

variable {ι : Type} (C : Finset ι) (w : ι → ℤ)

/-- What is kept from turn to turn. -/
structure Balanced (s : ι → ℤ) : Prop where
  sum_eq : ∑ j ∈ C, s j = 0
  floor : ∀ j ∈ C, -∑ k ∈ C, w k < s j

variable {C w} {s : ι → ℤ}

/-- The raised scores sum to the weights, so the greatest of them is positive. -/
theorem Balanced.raised_pos {i : ι} (hw : ∀ j ∈ C, 0 < w j) (hs : Balanced C w s) (hi : i ∈ C)
    (hgreatest : ∀ j ∈ C, s j + w j ≤ s i + w i) : 0 < s i + w i := by
  by_contra! hle
  have hraised : ∑ j ∈ C, (s j + w j) ≤ 0 := sum_nonpos fun j hj => (hgreatest j hj).trans hle
  have hpos : 0 < ∑ j ∈ C, w j := sum_pos hw ⟨i, hi⟩
  rw [sum_add_distrib, hs.sum_eq] at hraised
  omega

end

variable {ι : Type} [DecidableEq ι] (C : Finset ι) (w : ι → ℤ)

/-- One turn from the scores `s` to the scores `t` in which `i` is picked. -/
structure Turn (s : ι → ℤ) (i : ι) (t : ι → ℤ) : Prop where
  mem : i ∈ C
  greatest : ∀ j ∈ C, s j + w j ≤ s i + w i
  scores : ∀ j ∈ C, t j = s j + w j - if j = i then ∑ k ∈ C, w k else 0

/-- Turns one after the other, with what each picks. -/
inductive Turns : (ι → ℤ) → List ι → (ι → ℤ) → Prop
  | none (s) : Turns s [] s
  | turn {s t u i picks} : Turn C w s i t → Turns t picks u → Turns s (i :: picks) u

variable {C w} {s t : ι → ℤ} {i j : ι}

theorem Turn.sum_eq (h : Turn C w s i t) : ∑ j ∈ C, t j = ∑ j ∈ C, s j := by
  rw [sum_congr rfl h.scores, sum_sub_distrib, sum_add_distrib, sum_ite_eq', if_pos h.mem]
  ring

theorem Turn.balanced (hw : ∀ j ∈ C, 0 < w j) (hs : Balanced C w s) (h : Turn C w s i t) : Balanced C w t where
  sum_eq := h.sum_eq.trans hs.sum_eq
  floor j hj := by
    rw [h.scores j hj]
    split
    case isTrue heq =>
      have := hs.raised_pos hw h.mem h.greatest
      rw [heq]
      omega
    case isFalse =>
      have := hs.floor j hj
      have := hw j hj
      omega

theorem Turns.balanced {picks : List ι} (hw : ∀ j ∈ C, 0 < w j) (hs : Balanced C w s) (h : Turns C w s picks t) :
    Balanced C w t := by
  induction h with
  | none => exact hs
  | turn hturn _ ih => exact ih (hturn.balanced hw hs)

theorem Turns.mem {picks : List ι} (h : Turns C w s picks t) : ∀ i ∈ picks, i ∈ C := by
  induction h with
  | none => simp
  | turn hturn _ ih => simpa [hturn.mem] using ih

/-- A score says how far the candidate is ahead of its share. -/
theorem Turns.score_eq {picks : List ι} (h : Turns C w s picks t) (hj : j ∈ C) :
    t j = s j + picks.length * w j - (∑ k ∈ C, w k) * picks.count j := by
  induction h with
  | none => simp
  | @turn s t u i picks hturn _ ih =>
    rw [ih, hturn.scores j hj, List.length_cons, List.count_cons]
    rcases eq_or_ne j i with rfl | hne
    · rw [if_pos rfl, if_pos (beq_self_eq_true j)]
      push_cast
      ring
    · rw [if_neg hne, if_neg (by simpa using hne.symm)]
      push_cast
      ring

/-- No score is far from zero. -/
theorem Balanced.score_le (hs : Balanced C w s) (hj : j ∈ C) : s j + ∑ k ∈ C, w k ≤ C.card * ∑ k ∈ C, w k := by
  have hothers : ∑ k ∈ C.erase j, -(∑ l ∈ C, w l) ≤ ∑ k ∈ C.erase j, s k :=
    sum_le_sum fun k hk => (hs.floor k (mem_of_mem_erase hk)).le
  have hsum := hs.sum_eq
  rw [← add_sum_erase C s hj] at hsum
  rw [sum_const, card_erase_of_mem hj, nsmul_eq_mul, Nat.cast_sub (card_pos.2 ⟨j, hj⟩),
    Nat.cast_one] at hothers
  linarith

/-- After a whole round from zero each candidate was picked as often as it weighs, and every score is zero. -/
theorem Turns.round {picks : List ι} (hw : ∀ j ∈ C, 0 < w j) (hs : ∀ j ∈ C, s j = 0) (h : Turns C w s picks t)
    (hlength : (picks.length : ℤ) = ∑ k ∈ C, w k) : ∀ j ∈ C, t j = 0 ∧ (picks.count j : ℤ) = w j := by
  intro j hj
  have hpos : 0 < ∑ k ∈ C, w k := sum_pos hw ⟨j, hj⟩
  have hbalanced : Balanced C w t := h.balanced hw
    { sum_eq := sum_eq_zero hs, floor := fun k hk => by rw [hs k hk]; omega }
  have hscore : ∀ k ∈ C, t k = (∑ l ∈ C, w l) * (w k - picks.count k) := by
    intro k hk
    rw [h.score_eq hk, hs k hk, hlength]
    ring
  -- a multiple of the round above minus one round is not negative
  have hnonneg : ∀ k ∈ C, 0 ≤ t k := by
    intro k hk
    have hfloor := hbalanced.floor k hk
    rw [hscore k hk] at hfloor ⊢
    have : -1 < w k - picks.count k := by
      by_contra! hle
      nlinarith
    exact mul_nonneg hpos.le (by omega)
  have hzero := (sum_eq_zero_iff_of_nonneg hnonneg).1 hbalanced.sum_eq j hj
  refine ⟨hzero, ?_⟩
  rcases mul_eq_zero.1 ((hscore j hj).symm.trans hzero) with h | h <;> omega

end Praxis.Lib.Smooth
