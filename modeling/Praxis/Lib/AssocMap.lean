/-
Maps as lists of pairs, over keys with an equality of their own (a hash map), and over numbers in
ascending order (a tree map).
-/
import Mathlib.Data.List.Basic

namespace Praxis.Lib.AssocMap

open List

variable {K V : Type}

/-! ## By an equality -/

section

variable (eq : K → K → Bool)

def get? (m : List (K × V)) (k : K) : Option V := (m.find? fun p => eq p.1 k).map Prod.snd

def remove (m : List (K × V)) (k : K) : List (K × V) := m.filter fun p => !eq p.1 k

/-- The value is replaced under the key that is there, or added under the new one. -/
def set (k : K) (v : V) : List (K × V) → List (K × V)
  | [] => [(k, v)]
  | p :: rest => if eq p.1 k then (p.1, v) :: rest else p :: set k v rest

variable {eq} {m : List (K × V)} {k : K} {v : V}

theorem mem_of_get? (h : get? eq m k = some v) : ∃ k', (k', v) ∈ m ∧ eq k' k = true := by
  obtain ⟨p, hp, rfl⟩ := Option.map_eq_some_iff.1 h
  exact ⟨p.1, mem_of_find?_eq_some hp, by simpa using find?_some hp⟩

theorem mem_remove {p : K × V} (h : p ∈ remove eq m k) : p ∈ m := mem_of_mem_filter h

/-- What is in the map after setting a value: what was there, or the value under an equal key. -/
theorem mem_set {q : K × V} (h : q ∈ set eq k v m) :
    q ∈ m ∨ q.2 = v ∧ (q.1 = k ∨ (∃ v', (q.1, v') ∈ m) ∧ eq q.1 k = true) := by
  induction m with
  | nil => obtain rfl := mem_singleton.1 h; exact .inr ⟨rfl, .inl rfl⟩
  | cons p rest ih =>
    unfold set at h
    split at h
    · rename_i heq
      rcases h with _ | ⟨_, hrest⟩
      · exact .inr ⟨rfl, .inr ⟨⟨p.2, .head _⟩, heq⟩⟩
      · exact .inl (.tail _ hrest)
    · rcases h with _ | ⟨_, hrest⟩
      · exact .inl (.head _)
      · rcases ih hrest with hold | ⟨hval, hnew | ⟨⟨v', hmem⟩, heq⟩⟩
        · exact .inl (.tail _ hold)
        · exact .inr ⟨hval, .inl hnew⟩
        · exact .inr ⟨hval, .inr ⟨⟨v', .tail _ hmem⟩, heq⟩⟩

end

/-! ## In order -/

/-- The pair takes its place, or that of a pair with the same number. -/
def insertAt (n : Nat) (v : V) : List (Nat × V) → List (Nat × V)
  | [] => [(n, v)]
  | p :: rest =>
    if n < p.1 then (n, v) :: p :: rest
    else if n = p.1 then (n, v) :: rest
    else p :: insertAt n v rest

theorem mem_insertAt {n : Nat} {v : V} {m : List (Nat × V)} {q : Nat × V} (h : q ∈ insertAt n v m) : q = (n, v) ∨ q ∈ m := by
  induction m with
  | nil => exact .inl (mem_singleton.1 h)
  | cons p rest ih =>
    unfold insertAt at h
    split at h
    · exact mem_cons.1 h
    · split at h
      · exact (mem_cons.1 h).imp id (.tail p)
      · rcases h with _ | ⟨_, h⟩
        · exact .inr (.head _)
        · exact (ih h).imp id (.tail p)

end Praxis.Lib.AssocMap
