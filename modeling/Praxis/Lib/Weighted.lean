/-
Picking by weight: a slot is looked up in the running sums of the weights of a list, and the slots
are taken round robin by a tick. Over a window of as many ticks as there are slots every element is
picked as often as it weighs, wherever the window starts.
-/
import Mathlib.Data.Nat.Periodic

namespace Praxis.Lib

open List Nat

variable {α : Type}

/-- The weight of a list. -/
def weightOf (weight : α → Nat) (l : List α) : Nat := (l.map weight).sum

section

variable (weight : α → Nat)

@[simp] theorem weightOf_nil : weightOf weight [] = 0 := rfl

@[simp] theorem weightOf_cons {a : α} {l : List α} : weightOf weight (a :: l) = weight a + weightOf weight l := by
  rw [weightOf, map_cons, sum_cons, weightOf]

/-- The first element whose running sum passes the slot. -/
def bucket (slot : Nat) : Nat → List α → Option α
  | _, [] => none
  | cumulative, a :: l =>
    if slot < cumulative + weight a then some a else bucket slot (cumulative + weight a) l

end

section

variable {weight : α → Nat}

theorem weightOf_pos {l : List α} (hweight : ∀ a ∈ l, 1 ≤ weight a) : 0 < weightOf weight l ↔ l ≠ [] := by
  cases l with
  | nil => simp
  | cons a l =>
    have := hweight a (.head _)
    simp only [weightOf_cons, ne_eq, reduceCtorEq, not_false_eq_true, iff_true]
    omega

theorem weightOf_filter_le (weight : α → Nat) (P : α → Bool) (l : List α) : weightOf weight (l.filter P) ≤ weightOf weight l :=
  (filter_sublist.map weight).sum_le_sum fun _ _ => zero_le _

theorem weightOf_filter_key {β : Type} [DecidableEq β] {key : α → β} {a : α} : ∀ {l : List α}, (l.map key).Nodup →
    a ∈ l → weightOf weight (l.filter (key · == key a)) = weight a
  | b :: l, hnodup, ha => by
    rw [map_cons, nodup_cons] at hnodup
    rcases ha with _ | ⟨_, ha⟩
    · have hrest : l.filter (key · == key a) = [] :=
        filter_eq_nil_iff.2 fun b hb heq => hnodup.1 (beq_iff_eq.1 heq ▸ mem_map_of_mem hb)
      rw [filter_cons_of_pos (p := (key · == key a)) (beq_self_eq_true (key a)), hrest, weightOf_cons, weightOf_nil, add_zero]
    · have hne : key b ≠ key a := fun heq => hnodup.1 (heq ▸ mem_map_of_mem ha)
      rw [filter_cons_of_neg (by simpa using hne)]
      exact weightOf_filter_key hnodup.2 ha

theorem mem_of_bucket {slot : Nat} {a : α} : ∀ {l : List α} {cumulative : Nat},
    bucket weight slot cumulative l = some a → a ∈ l
  | b :: l, cumulative, h => by
    rw [bucket] at h
    split at h
    · cases h
      exact .head _
    · exact .tail b (mem_of_bucket h)

theorem bucket_isSome {slot : Nat} : ∀ {l : List α} {cumulative : Nat}, slot < cumulative + weightOf weight l →
    cumulative ≤ slot → (bucket weight slot cumulative l).isSome
  | [], cumulative, h, hle => by
    rw [weightOf_nil] at h
    omega
  | a :: l, cumulative, h, hle => by
    rw [weightOf_cons] at h
    rw [bucket]
    split
    · rfl
    · exact bucket_isSome (by omega) (by omega)

theorem bucket_mod_isSome {l : List α} (hpos : 0 < weightOf weight l) (tick : Nat) :
    (bucket weight (tick % weightOf weight l) 0 l).isSome :=
  bucket_isSome (by rw [zero_add]; exact mod_lt tick hpos) (zero_le _)

/-- Only the distance of the slot from the running sum matters. -/
theorem bucket_add {slot : Nat} : ∀ {l : List α} {cumulative : Nat} (d : Nat),
    bucket weight (d + slot) (d + cumulative) l = bucket weight slot cumulative l
  | [], _, _ => rfl
  | a :: l, cumulative, d => by
    rw [bucket, bucket, Nat.add_assoc d, bucket_add d]
    exact if_congr (Nat.add_lt_add_iff_left) rfl rfl

/-- Each element takes as many of the slots as it weighs. -/
theorem count_bucket (P : α → Bool) : ∀ l : List α,
    count (fun slot => (bucket weight slot 0 l).any P) (weightOf weight l) = weightOf weight (l.filter P)
  | [] => rfl
  | a :: l => by
    -- the first `weight a` slots are those of `a`, the others are those of the rest of the list
    have hhead : count (fun slot => (bucket weight slot 0 (a :: l)).any P) (weight a) = if P a then weight a else 0 := by
      rw [count_eq_card_filter_range, Finset.filter_congr (q := fun _ => P a), Finset.filter_const]
      · split <;> simp
      · intro slot hslot
        rw [bucket, if_pos (by rw [zero_add]; exact Finset.mem_range.mp hslot), Option.any_some]
    have htail : (fun slot => (bucket weight (weight a + slot) 0 (a :: l)).any P = true)
        = fun slot => (bucket weight slot 0 l).any P = true := by
      funext slot
      have hshift : bucket weight (weight a + slot) (weight a + 0) l = bucket weight slot 0 l := bucket_add (weight a)
      rw [bucket, if_neg (by omega), zero_add, ← hshift, add_zero]
    rw [weightOf_cons, count_add, hhead]
    simp only [htail]
    rw [count_bucket P l, filter_cons]
    split <;> simp

/-- Ticks in a row that are as many as the slots pick each element as often as it weighs. -/
theorem countP_window (P : α → Bool) (l : List α) (start : Nat) :
    ((List.range' start (weightOf weight l)).map fun tick => bucket weight (tick % weightOf weight l) 0 l).countP
      (·.any P) = weightOf weight (l.filter P) := by
  let picked tick := (bucket weight (tick % weightOf weight l) 0 l).any P = true
  have hperiodic : Function.Periodic picked (weightOf weight l) := fun tick => by simp only [picked, Nat.add_mod_right]
  have hfirst : (weightOf weight l).count picked = weightOf weight (l.filter P) := by
    rw [← count_bucket P l, Nat.count_eq_card_filter_range, Nat.count_eq_card_filter_range]
    refine congrArg Finset.card (Finset.filter_congr fun slot hslot => ?_)
    simp only [picked, Nat.mod_eq_of_lt (Finset.mem_range.mp hslot)]
  have hwindow := Nat.filter_Ico_card_eq_of_periodic start (weightOf weight l) picked hperiodic
  rw [hfirst, Nat.Ico_eq_range', Nat.add_sub_cancel_left] at hwindow
  rw [← hwindow, List.countP_map, List.countP_eq_length_filter]
  exact congrArg List.length (List.filter_congr fun tick _ => Bool.decide_eq_true.symm)

end

end Praxis.Lib
