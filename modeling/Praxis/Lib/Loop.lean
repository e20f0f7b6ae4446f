/-
Loops on explicit fuel. A loop body either asks for another pass or stops with a result; the
rules below carry an invariant along a run and bound the number of passes by a measure.
-/
import Mathlib.Order.Basic

namespace Praxis.Lib

/-- What one pass of a loop body decides. -/
inductive Pass (α β : Type) where
  | again (a : α)
  | stop (b : β)

/-- Runs `step` from `a` for at most `n` passes; `none` when the fuel runs out. -/
def loop {α β : Type} (step : α → Pass α β) : Nat → α → Option β
  | 0, _ => none
  | n + 1, a =>
    match step a with
    | .again a' => loop step n a'
    | .stop b => some b

variable {α β : Type} {step : α → Pass α β} {n : Nat} {a : α} {b : β}

theorem loop_succ_again {a' : α} (h : step a = .again a') : loop step (n + 1) a = loop step n a' := by
  rw [loop, h]

theorem loop_succ_stop (h : step a = .stop b) : loop step (n + 1) a = some b := by
  rw [loop, h]

/-- An invariant of the passes gives the postcondition of every run that returns. -/
theorem loop_inv {I : α → Prop} {Q : β → Prop} (hagain : ∀ a a', I a → step a = .again a' → I a')
    (hstop : ∀ a b, I a → step a = .stop b → Q b) :
    ∀ {n : Nat} {a : α} {b : β}, I a → loop step n a = some b → Q b
  | 0, a, b, _, h => by cases h
  | n + 1, a, b, ha, h => by
    cases hs : step a with
    | again a' =>
      rw [loop_succ_again hs] at h
      exact loop_inv hagain hstop (hagain a a' ha hs) h
    | stop b' =>
      rw [loop_succ_stop hs] at h
      cases h
      exact hstop a b ha hs

/-- A measure that every further pass lowers bounds the passes: more fuel than the measure is
enough. -/
theorem loop_returns {I : α → Prop} (measure : α → Nat)
    (hagain : ∀ a a', I a → step a = .again a' → I a' ∧ measure a' < measure a) :
    ∀ {n : Nat} {a : α}, I a → measure a < n → ∃ b, loop step n a = some b
  | 0, a, _, hn => by omega
  | n + 1, a, ha, hn => by
    cases hs : step a with
    | again a' =>
      obtain ⟨hI, hlt⟩ := hagain a a' ha hs
      rw [loop_succ_again hs]
      exact loop_returns measure hagain hI (by omega)
    | stop b => exact ⟨b, loop_succ_stop hs⟩

theorem loop_mono : ∀ {n m : Nat} {a : α} {b : β}, loop step n a = some b → n ≤ m → loop step m a = some b
  | 0, m, a, b, h, _ => by cases h
  | n + 1, 0, a, b, _, hm => by omega
  | n + 1, m + 1, a, b, h, hm => by
    cases hs : step a with
    | again a' =>
      rw [loop_succ_again hs] at h ⊢
      exact loop_mono h (by omega)
    | stop b' =>
      rw [loop_succ_stop hs] at h ⊢
      exact h

/-- Enough fuel for a bounded run gives the result that any fuel gives. -/
theorem loop_eq_of_measure {I : α → Prop} (measure : α → Nat)
    (hagain : ∀ a a', I a → step a = .again a' → I a' ∧ measure a' < measure a) {m : Nat} (ha : I a) (hn : measure a < n)
    (h : loop step m a = some b) : loop step n a = some b := by
  obtain ⟨b', hb'⟩ := loop_returns measure hagain ha hn
  have hlarge := loop_mono h (Nat.le_max_left m n)
  rw [loop_mono hb' (Nat.le_max_right m n)] at hlarge
  exact hb'.trans hlarge

theorem loop_items {ι : Type} {P : ι → Prop} (state : List ι → α)
    (hitem : ∀ i is, P i → step (state (i :: is)) = .again (state is)) {m : Nat} :
    ∀ {is : List ι}, (∀ i ∈ is, P i) → loop step (is.length + m) (state is) = loop step m (state [])
  | [], _ => by rw [List.length_nil, Nat.zero_add]
  | i :: is, h => by
    rw [List.length_cons, Nat.add_right_comm, loop_succ_again (hitem i is (h i (.head _)))]
    exact loop_items state hitem fun j hj => h j (.tail i hj)

/-- Where a run stops, when another body goes on wherever this one does: the other run comes by. -/
theorem loop_stops {other : α → Pass α β} (hother : ∀ a a', step a = .again a' → other a = .again a') :
    ∀ {n : Nat} {a : α} {b : β}, loop step n a = some b →
      ∃ a' k, step a' = .stop b ∧ ∀ m, loop other (m + k) a = loop other m a'
  | 0, _, _, h => by cases h
  | n + 1, a, b, h => by
    cases hs : step a with
    | again a' =>
      rw [loop_succ_again hs] at h
      obtain ⟨a'', k, hstop, hk⟩ := loop_stops hother h
      exact ⟨a'', k + 1, hstop, fun m => by rw [← Nat.add_assoc, loop_succ_again (hother a a' hs), hk]⟩
    | stop b' =>
      rw [loop_succ_stop hs] at h
      cases h
      exact ⟨a, 0, hs, fun m => rfl⟩

end Praxis.Lib
