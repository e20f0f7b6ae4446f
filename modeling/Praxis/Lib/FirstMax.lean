/-
The first of the largest elements of a list. A stable sort leaves it, as long as elements of one
rank stay in their order; and a scan may stop as soon as what is left cannot change its result.
-/
import Mathlib.Data.List.MinMax
import Mathlib.Data.List.Perm.Subperm

namespace Praxis.Lib

open List

variable {α β : Type}

/-! ## Largest elements under a stable sort -/

section

variable [LinearOrder β] {f : α → β} {l : List α}

theorem argmax_eq_head? {m : α} (hm : m ∈ l.argmax f) : l.argmax f = (l.filter fun a => f a = f m).head? := by
  induction l generalizing m with
  | nil => cases hm
  | cons a t ih =>
    have hargmax := argmax_cons f a t
    rcases ht : t.argmax f with _ | c
    · rw [argmax_eq_none.1 ht] at hm ⊢
      cases hm
      simp
    · simp only [ht] at hargmax
      by_cases hlt : f a < f c
      · -- the head is not the largest
        rw [hargmax, if_pos hlt] at hm ⊢
        cases hm
        rw [filter_cons_of_neg (by simpa using hlt.ne), ← ih ht, ht]
      · rw [hargmax, if_neg hlt] at hm ⊢
        cases hm
        rw [filter_cons_of_pos (by simp), head?_cons]

/-- Lists with the same elements of every rank, in the same order, have one largest. -/
theorem argmax_eq_of_ranks {l' : List α} (hmem : ∀ a, a ∈ l ↔ a ∈ l')
    (hranks : ∀ k, (l.filter fun a => f a = k) = l'.filter fun a => f a = k) : l.argmax f = l'.argmax f := by
  rcases hl : l.argmax f with _ | m
  · have hnil := argmax_eq_none.1 hl
    have hnil' : l' = [] := eq_nil_iff_forall_not_mem.2 fun a ha => by simpa [hnil] using (hmem a).2 ha
    rw [hnil', argmax_nil]
  · rcases hl' : l'.argmax f with _ | m'
    · have hnil := argmax_eq_none.1 hl'
      have hm := (hmem m).1 (argmax_mem hl)
      rw [hnil] at hm
      cases hm
    · have hrank : f m = f m' := le_antisymm (le_of_mem_argmax ((hmem m).1 (argmax_mem hl)) hl')
        (le_of_mem_argmax ((hmem m').2 (argmax_mem hl')) hl)
      rw [← hl, ← hl', argmax_eq_head? hl, argmax_eq_head? hl', hrank, hranks]

section

variable {le : α → α → Bool} (htrans : ∀ a b c, le a b → le b c → le a c) (htotal : ∀ a b, le a b || le b a)
include htrans htotal

/-- A stable sort keeps the elements of one rank in their order. -/
theorem filter_mergeSort {p : α → Bool} (hclass : ∀ a b, p a → p b → le a b) (l : List α) :
    (l.mergeSort le).filter p = l.filter p := by
  have hsorted : (l.filter p).Pairwise fun a b => le a b :=
    pairwise_of_forall_mem_list fun a ha b hb => hclass a b (mem_filter.1 ha).2 (mem_filter.1 hb).2
  have hsub := (sublist_mergeSort htrans htotal hsorted filter_sublist).filter p
  rw [filter_filter] at hsub
  simp only [Bool.and_self] at hsub
  refine (hsub.eq_of_length ?_).symm
  exact ((mergeSort_perm l le).filter p).length_eq.symm

theorem argmax_filter_mergeSort (hrank : ∀ a b, f a = f b → le a b) (keep : α → Bool) (l : List α) :
    ((l.mergeSort le).filter keep).argmax f = (l.filter keep).argmax f := by
  refine argmax_eq_of_ranks (fun a => by simp) fun k => ?_
  rw [filter_comm, filter_comm (l := l)]
  rw [filter_mergeSort htrans htotal]
  intro a b ha hb
  exact hrank a b ((of_decide_eq_true ha).trans (of_decide_eq_true hb).symm)

end

/-- The best so far with its rank; a candidate has to be better. -/
def keepBest (f : α → β) (best : Option (β × α)) (a : α) : Option (β × α) :=
  if best.any fun b => f a ≤ b.1 then best else some (f a, a)

theorem foldl_keepBest : l.foldl (keepBest f) none = (l.argmax f).map fun a => (f a, a) := by
  induction l using reverseRecOn with
  | nil => rfl
  | append_singleton l a ih =>
    rw [foldl_append, ih, argmax_concat, foldl_cons, foldl_nil]
    rcases l.argmax f with _ | m
    · rfl
    · by_cases hlt : f m < f a
      · simp [keepBest, hlt]
      · simp [keepBest, hlt, not_lt.1 hlt]

end

/-! ## A scan with any comparison -/

/-- The scan that replaces what it holds by a better candidate. -/
def scanBest (better : α → α → Bool) (l : List α) : Option α :=
  l.foldl (fun best a => if best.all (better a) then some a else best) none

/-- With a comparison of keys the scan finds a least element. -/
theorem scanBest_eq_argmin [LinearOrder β] {better : α → α → Bool} {key : α → β} {l : List α}
    (h : ∀ a ∈ l, ∀ b ∈ l, better a b = decide (key a < key b)) : scanBest better l = l.argmin key := by
  induction l using reverseRecOn with
  | nil => rfl
  | append_singleton l a ih =>
    have ih := ih fun a ha b hb => h a (mem_append_left _ ha) b (mem_append_left _ hb)
    rw [argmin_concat, ← ih, scanBest, foldl_append, ← scanBest]
    -- the last element replaces what was found before it only if its key is less
    rcases hbest : scanBest better l with _ | c
    · rfl
    · have hc : c ∈ l := argmin_mem (ih ▸ hbest)
      simp [h a (by simp) c (mem_append_left _ hc)]

/-! ## A loop with `continue` and `break` -/

/-- Skips what is not kept and takes the rest in, until told to stop. -/
def scanUntil (keep : α → Bool) (update : β → α → β) (stop : β → α → Bool) : β → List α → β
  | best, [] => best
  | best, a :: rest =>
    if !keep a then scanUntil keep update stop best rest
    else
      let best := update best a
      if stop best a then best else scanUntil keep update stop best rest

theorem foldl_of_fixed {update : β → α → β} {b : β} : ∀ {l : List α}, (∀ a ∈ l, update b a = b) → l.foldl update b = b
  | [], _ => rfl
  | a :: l, h => by
    rw [foldl_cons, h a mem_cons_self]
    exact foldl_of_fixed fun c hc => h c (.tail a hc)

/-- Stopping makes no difference where what is left would not be taken in. -/
theorem scanUntil_eq_foldl {keep : α → Bool} {update : β → α → β} {stop : β → α → Bool} {I : β → List α → Prop}
    (hskip : ∀ b a as, I b (a :: as) → keep a = false → I b as)
    (htake : ∀ b a as, I b (a :: as) → keep a = true → I (update b a) as)
    (hstop : ∀ b a as, I b (a :: as) → keep a = true → stop (update b a) a = true →
      ∀ c ∈ as, keep c = true → update (update b a) c = update b a) :
    ∀ (l : List α) (b : β), I b l → scanUntil keep update stop b l = (l.filter keep).foldl update b
  | [], _, _ => rfl
  | a :: as, b, hI => by
    rw [scanUntil]
    rcases hkeep : keep a with _ | _
    · rw [filter_cons_of_neg (by simp [hkeep])]
      exact scanUntil_eq_foldl hskip htake hstop as b (hskip b a as hI hkeep)
    · rw [filter_cons_of_pos hkeep, foldl_cons]
      simp only [Bool.not_true, Bool.false_eq_true, if_false]
      split
      case isTrue hnow =>
        refine (foldl_of_fixed fun c hc => ?_).symm
        exact hstop b a as hI hkeep hnow c (mem_of_mem_filter hc) (mem_filter.1 hc).2
      case isFalse => exact scanUntil_eq_foldl hskip htake hstop as _ (htake b a as hI hkeep)

end Praxis.Lib
