/-
Lists as arrays: what is read at a position after another position was written.
-/
import Mathlib.Data.List.GetD
import Mathlib.Algebra.Ring.Nat

namespace Praxis.Lib

open List

variable {α : Type} {l : List α} {k : Nat}

theorem getD_set (hk : k < l.length) (a : α) (pos : Nat) (d : α) :
    (l.set k a).getD pos d = if pos = k then a else l.getD pos d := by
  rw [getD_eq_getElem?_getD, getElem?_set, getD_eq_getElem?_getD]
  rcases eq_or_ne pos k with rfl | hne
  · rw [if_pos rfl, if_pos hk, if_pos rfl, Option.getD_some]
  · rw [if_neg hne.symm, if_neg hne]

theorem getD_modify (hk : k < l.length) (f : α → α) (pos : Nat) (d : α) :
    (l.modify k f).getD pos d = if pos = k then f (l.getD k d) else l.getD pos d := by
  rw [getD_eq_getElem?_getD, getElem?_modify, getD_eq_getElem?_getD, getD_eq_getElem?_getD]
  rcases eq_or_ne pos k with rfl | hne
  · simp [getElem?_eq_getElem hk]
  · simp [hne, hne.symm]

theorem sum_set_succ : ∀ {l : List Nat} {k : Nat}, k < l.length → (l.set k (l.getD k 0 + 1)).sum = l.sum + 1
  | n :: l, 0, _ => by
    rw [set_cons_zero, getD_cons_zero, sum_cons, sum_cons]
    omega
  | n :: l, k + 1, hk => by
    rw [set_cons_succ, getD_cons_succ, sum_cons, sum_cons, sum_set_succ (Nat.lt_of_succ_lt_succ hk)]
    omega

end Praxis.Lib
