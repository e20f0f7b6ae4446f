/-
Ledgers: what was taken and what was given back, in the order in which it happened. Which resources are
still held is a matter of counting, so holdings are lists up to permutation.
-/
import Mathlib.Data.List.Perm.Basic

namespace Praxis.Lib

open List

variable {α : Type}

inductive Entry (α : Type) where
  | taken (a : α)
  | given (a : α)
deriving Repr, DecidableEq

/-- Everything that was taken. -/
def taken (ledger : List (Entry α)) : List α :=
  ledger.filterMap fun
    | .taken a => some a
    | .given _ => none

/-- Everything that was given back. -/
def given (ledger : List (Entry α)) : List α :=
  ledger.filterMap fun
    | .taken _ => none
    | .given a => some a

/-- What was taken and not given back is exactly `held`. -/
def Owes (ledger : List (Entry α)) (held : List α) : Prop := (taken ledger).Perm (given ledger ++ held)

/-- Everything that was taken was given back, once for each time, and nothing else was. -/
def Balanced (ledger : List (Entry α)) : Prop := (taken ledger).Perm (given ledger)

instance [DecidableEq α] (ledger : List (Entry α)) : Decidable (Balanced ledger) :=
  inferInstanceAs (Decidable ((taken ledger).Perm (given ledger)))

theorem owes_nil : Owes ([] : List (Entry α)) [] := Perm.refl _

variable {ledger : List (Entry α)} {held held' : List α} {a : α}

theorem Owes.perm (h : Owes ledger held) (hp : held.Perm held') : Owes ledger held' :=
  h.trans (hp.append_left _)

theorem Owes.take (h : Owes ledger held) : Owes (ledger ++ [.taken a]) (a :: held) := by
  have htaken : taken (ledger ++ [.taken a]) = taken ledger ++ [a] := by simp [taken]
  have hgiven : given (ledger ++ [.taken a]) = given ledger := by simp [given]
  rw [Owes, htaken, hgiven]
  exact (perm_append_singleton a _).trans ((h.cons a).trans perm_middle.symm)

theorem Owes.give (h : Owes ledger (a :: held)) : Owes (ledger ++ [.given a]) held := by
  have htaken : taken (ledger ++ [.given a]) = taken ledger := by simp [taken]
  have hgiven : given (ledger ++ [.given a]) = given ledger ++ [a] := by simp [given]
  rw [Owes, htaken, hgiven, append_assoc]
  exact h

theorem Owes.giveAll {as : List α} (h : Owes ledger (as ++ held)) : Owes (ledger ++ as.map .given) held := by
  induction as generalizing ledger with
  | nil => simpa using h
  | cons a as ih =>
    rw [map_cons, ← singleton_append, ← append_assoc]
    exact ih h.give

theorem Owes.balanced (h : Owes ledger []) : Balanced ledger := by
  rw [Owes, append_nil] at h
  exact h

end Praxis.Lib
