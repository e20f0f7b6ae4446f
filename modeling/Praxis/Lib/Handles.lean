/-
Shared allocations told apart by their address. An allocation lives as long as a strong or a weak
handle on it is left, and only then may its address be given out again; so among the handles that
exist at one time an address belongs to one allocation.
-/
import Mathlib.Data.List.Basic

namespace Praxis.Lib

/-- A handle: the address it points at, and which allocation that is. A program sees the address only. -/
structure Handle where
  address : Nat
  id : Nat
deriving Repr, DecidableEq

namespace Handle

/-- The address behind a handle that may be missing, zero for none. -/
def allocation : Option Handle → Nat
  | none => 0
  | some h => h.address

/-- No two allocations share an address, and none is at zero. -/
structure Distinct (hs : List Handle) : Prop where
  nonzero : ∀ h ∈ hs, h.address ≠ 0
  unique : ∀ h ∈ hs, ∀ h' ∈ hs, h.address = h'.address → h = h'

variable {hs : List Handle}

theorem flatMap_subset {α : Type} {l : List α} {f : α → List Handle} : l.flatMap f ⊆ hs ↔ ∀ a ∈ l, f a ⊆ hs :=
  ⟨fun h a ha _ hx => h (List.mem_flatMap.2 ⟨a, ha, hx⟩), fun h x hx => by
    obtain ⟨a, ha, hx⟩ := List.mem_flatMap.1 hx
    exact h a ha hx⟩

theorem Distinct.nil : Distinct [] := ⟨by simp, by simp⟩

theorem Distinct.mono {hs' : List Handle} (h : Distinct hs) (hsub : hs' ⊆ hs) : Distinct hs' :=
  ⟨fun x hx => h.nonzero x (hsub hx), fun x hx y hy => h.unique x (hsub hx) y (hsub hy)⟩

theorem Distinct.cons {new : Handle} (h : Distinct hs) (hnonzero : new.address ≠ 0)
    (hfree : ∀ x ∈ hs, x.address ≠ new.address) : Distinct (new :: hs) := by
  constructor
  · intro x hx
    rcases hx with _ | ⟨_, hx⟩
    · exact hnonzero
    · exact h.nonzero x hx
  · intro x hx y hy haddress
    rcases List.mem_cons.1 hx with hxnew | hxold <;> rcases List.mem_cons.1 hy with hynew | hyold
    · rw [hxnew, hynew]
    · exact absurd (hxnew ▸ haddress.symm) (hfree y hyold)
    · exact absurd (hynew ▸ haddress) (hfree x hxold)
    · exact h.unique x hxold y hyold haddress

/-- Handles that exist together and have one address are handles on one allocation. -/
theorem Distinct.eq_of_allocation (h : Distinct hs) {a b : Option Handle} (ha : ∀ x ∈ a, x ∈ hs) (hb : ∀ x ∈ b, x ∈ hs)
    (heq : allocation a = allocation b) : a = b := by
  match a, b with
  | none, none => rfl
  | none, some y => exact absurd heq.symm (h.nonzero y (hb y rfl))
  | some x, none => exact absurd heq (h.nonzero x (ha x rfl))
  | some x, some y => rw [h.unique x (ha x rfl) y (hb y rfl) heq]

end Handle

end Praxis.Lib
