/-
Lists cut into segments at a separator, and put together again. A list that begins with the
separator is its segments, each behind a separator; what stands between two separators, or behind
the last one, is a segment.
-/
import Mathlib.Data.List.Infix

namespace Praxis.Lib

open List

variable {α : Type} {sep : α} {seg rest : List α} {segs : List (List α)}

/-- Each segment behind a separator. -/
def joinSegments (sep : α) (segs : List (List α)) : List α := segs.flatMap (sep :: ·)

@[simp] theorem joinSegments_nil : joinSegments sep [] = [] := rfl

@[simp] theorem joinSegments_cons : joinSegments sep (seg :: segs) = sep :: (seg ++ joinSegments sep segs) := rfl

@[simp] theorem joinSegments_append {xs ys : List (List α)} :
    joinSegments sep (xs ++ ys) = joinSegments sep xs ++ joinSegments sep ys := flatMap_append

variable [DecidableEq α]

theorem joinSegments_splitOnP (sep : α) (rest : List α) : joinSegments sep (rest.splitOnP (· == sep)) = sep :: rest := by
  induction rest with
  | nil => rfl
  | cons c rest ih =>
    rw [splitOnP_cons_eq_if_modifyHead]
    split
    · next hsep => simp [ih, eq_of_beq hsep]
    · obtain ⟨first, others, hsplit⟩ := exists_cons_of_ne_nil (splitOnP_ne_nil (· == sep) rest)
      rw [hsplit, joinSegments_cons, cons.injEq] at ih
      simp [hsplit, ih.2]

theorem splitOnP_sep_cons (rest : List α) : (sep :: rest).splitOnP (· == sep) = [] :: rest.splitOnP (· == sep) := by
  rw [splitOnP_cons_eq_if_modifyHead, if_pos (beq_self_eq_true sep)]

theorem splitOnP_append_sep (front : List α) :
    (front ++ sep :: rest).splitOnP (· == sep) = front.splitOnP (· == sep) ++ rest.splitOnP (· == sep) :=
  splitOnP_append_cons front rest (beq_self_eq_true sep)

theorem splitOnP_of_not_mem (h : sep ∉ seg) : seg.splitOnP (· == sep) = [seg] :=
  splitOnP_eq_singleton fun _ hc => beq_eq_false_iff_ne.2 fun heq => h (heq ▸ hc)

theorem not_mem_of_mem_splitOnP (h : seg ∈ rest.splitOnP (· == sep)) : sep ∉ seg := by
  induction rest generalizing seg with
  | nil => simp_all [splitOnP_nil]
  | cons c rest ih =>
    rw [splitOnP_cons_eq_if_modifyHead] at h
    split at h
    · rcases h with _ | ⟨_, h⟩
      · exact not_mem_nil
      · exact ih h
    · next hc =>
      obtain ⟨first, others, hsplit⟩ := exists_cons_of_ne_nil (splitOnP_ne_nil (· == sep) rest)
      rw [hsplit, modifyHead_cons] at h
      rw [hsplit] at ih
      rcases h with _ | ⟨_, h⟩
      · rw [mem_cons, not_or]
        exact ⟨fun heq => hc (beq_iff_eq.2 heq.symm), ih (.head _)⟩
      · exact ih (.tail _ h)

/-- Segments without the separator come back out of the list that they are joined to. -/
theorem splitOnP_joinSegments (hfree : ∀ seg ∈ segs, sep ∉ seg) (hne : segs ≠ []) :
    ∃ rest, joinSegments sep segs = sep :: rest ∧ rest.splitOnP (· == sep) = segs := by
  induction segs with
  | nil => cases hne rfl
  | cons first others ih =>
    have hfirst := hfree first (.head _)
    refine ⟨first ++ joinSegments sep others, rfl, ?_⟩
    cases others with
    | nil => simpa using splitOnP_of_not_mem hfirst
    | cons second others =>
      obtain ⟨rest, hjoin, hsplit⟩ := ih (fun seg hsegment => hfree seg (.tail _ hsegment)) (by simp)
      rw [hjoin, splitOnP_append_sep, splitOnP_of_not_mem hfirst, hsplit]
      rfl

/-- The segments behind a separator are what stands between two separators, and behind the last one. -/
theorem mem_splitOnP_iff (hfree : sep ∉ seg) :
    seg ∈ rest.splitOnP (· == sep) ↔
      (sep :: (seg ++ [sep])) <:+: (sep :: rest) ∨ (sep :: seg) <:+ (sep :: rest) := by
  constructor
  · intro hmem
    obtain ⟨front, back, hsplit⟩ := append_of_mem hmem
    have hjoin := joinSegments_splitOnP sep rest
    rw [hsplit, joinSegments_append, joinSegments_cons] at hjoin
    rw [← hjoin]
    cases back with
    | nil => exact .inr ⟨joinSegments sep front, by simp⟩
    | cons next back => exact .inl ⟨joinSegments sep front, next ++ joinSegments sep back, by simp⟩
  · -- the front is not empty once it is split, so the segment is not the first one
    have htail : ∀ front back, [] :: rest.splitOnP (· == sep) = splitOnP (· == sep) front ++ seg :: back →
        seg ∈ rest.splitOnP (· == sep) := by
      intro front back heq
      obtain ⟨first, others, hsplit⟩ := exists_cons_of_ne_nil (splitOnP_ne_nil (· == sep) front)
      rw [hsplit, cons_append, cons.injEq] at heq
      rw [heq.2]
      simp
    rintro (⟨front, back, heq⟩ | ⟨front, heq⟩)
    · refine htail front (back.splitOnP (· == sep)) ?_
      rw [← splitOnP_sep_cons, ← heq, append_assoc, cons_append, append_assoc, singleton_append,
        splitOnP_append_sep, splitOnP_append_sep, splitOnP_of_not_mem hfree]
      rfl
    · refine htail front [] ?_
      rw [← splitOnP_sep_cons, ← heq, splitOnP_append_sep, splitOnP_of_not_mem hfree]

end Praxis.Lib
