/-
Properties of a trace that speak about each entry and what came before it. They are kept by
appending one entry at a time.
-/
import Mathlib.Data.List.Basic

namespace Praxis.Lib

open List

variable {α : Type}

/-- Every entry of the trace stands in the relation `P` to the entries before it. -/
def Throughout (P : List α → α → Prop) (es : List α) : Prop :=
  ∀ pre e post, es = pre ++ e :: post → P pre e

variable {P : List α → α → Prop}

theorem Throughout.nil : Throughout P [] := by
  intro pre e post h
  cases pre <;> cases h

theorem Throughout.concat {es : List α} {e : α} (h : Throughout P es) (he : P es e) : Throughout P (es ++ [e]) := by
  intro pre e' post heq
  rcases eq_nil_or_concat post with rfl | ⟨post', last, rfl⟩
  · obtain ⟨rfl, hlast⟩ := append_inj' heq rfl
    cases hlast
    exact he
  · have hsplit : es ++ [e] = (pre ++ e' :: post') ++ [last] := by simpa using heq
    exact h pre e' post' (append_inj' hsplit rfl).1

theorem Throughout.take {P : List α → α → Prop} {es : List α} (h : Throughout P es) {i : Nat} {e : α}
    (he : es[i]? = some e) : P (es.take i) e := by
  obtain ⟨hlt, rfl⟩ := List.getElem?_eq_some_iff.1 he
  refine h (es.take i) es[i] (es.drop (i + 1)) ?_
  rw [← List.drop_eq_getElem_cons hlt, List.take_append_drop]

/-- The newest entry on which `f` is defined. -/
def latest {β : Type} (f : α → Option β) (es : List α) : Option β :=
  es.foldl (fun found e => (f e).or found) none

@[simp] theorem latest_concat {β : Type} (f : α → Option β) (es : List α) (e : α) :
    latest f (es ++ [e]) = (f e).or (latest f es) := by
  rw [latest, foldl_append]
  rfl

end Praxis.Lib
