/-
Iterating a function until it stands still. Where the function keeps an order and every strict
step raises a bounded rank, as many rounds as the rank has room for reach a fixed point.
-/
import Mathlib.Data.List.Forall2
import Mathlib.Data.List.Count

namespace Praxis.Lib

/-- Applies `f` until the value no longer changes, for at most `n` rounds. -/
def untilStable {α : Type} [DecidableEq α] (f : α → α) : Nat → α → α
  | 0, a => a
  | n + 1, a => if f a = a then a else untilStable f n (f a)

/-- From a point that its image is above, `f` reaches a fixed point before the rank passes its
bound. -/
theorem untilStable_fixed {α : Type} [DecidableEq α] {f : α → α} {R : α → α → Prop} {rank : α → Nat} {bound : Nat}
    (hf : ∀ a b, R a b → R (f a) (f b)) (hrank : ∀ a b, R a b → a ≠ b → rank a < rank b)
    (hbound : ∀ a, rank (f a) ≤ bound) :
    ∀ (n : Nat) {a : α}, R a (f a) → rank a ≤ bound → bound < n + rank a →
      f (untilStable f n a) = untilStable f n a
  | 0, a, _, ha, hn => by omega
  | n + 1, a, hR, ha, hn => by
    rw [untilStable]
    split
    · assumption
    · rename_i hne
      have hlt : rank a < rank (f a) := hrank a (f a) hR (Ne.symm hne)
      exact untilStable_fixed hf hrank hbound n (hf _ _ hR) (hbound a) (by omega)

/-! ## Vectors of flags -/

/-- `bs` has every flag that `as` has. -/
def FlagsLe (as bs : List Bool) : Prop := List.Forall₂ (fun a b => a = true → b = true) as bs

theorem FlagsLe.getElem {as bs : List Bool} (h : FlagsLe as bs) : ∀ {i : Nat}, as[i]? = some true → bs[i]? = some true := by
  induction h with
  | nil => intro i hi; cases hi
  | @cons a b as bs hab hrest ih =>
    intro i hi
    cases i with
    | zero => exact congrArg some (hab (Option.some.inj hi))
    | succ i => exact ih hi

theorem flagsLe_map {α : Type} {f g : α → Bool} : ∀ {l : List α}, (∀ x ∈ l, f x = true → g x = true) →
    FlagsLe (l.map f) (l.map g)
  | [], _ => .nil
  | x :: _, h => .cons (h x (.head _)) (flagsLe_map fun y hy => h y (.tail x hy))

/-- Of two different comparable vectors the greater has more flags set. -/
theorem FlagsLe.count_lt {as bs : List Bool} (h : FlagsLe as bs) (hne : as ≠ bs) : as.count true < bs.count true := by
  induction h with
  | nil => cases hne rfl
  | @cons a b as bs hab hrest ih =>
    have hle : as.count true ≤ bs.count true := by
      by_cases heq : as = bs
      · exact Nat.le_of_eq (by rw [heq])
      · exact Nat.le_of_lt (ih heq)
    cases a <;> cases b
    · have : as ≠ bs := fun e => hne (by rw [e])
      simpa using ih this
    · simpa using Nat.lt_succ_of_le hle
    · exact absurd (hab rfl) (by decide)
    · have : as ≠ bs := fun e => hne (by rw [e])
      simpa using ih this

end Praxis.Lib
