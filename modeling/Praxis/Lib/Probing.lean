/-
Probe sequences: slots at a fixed step from each other, around a table. When the step is coprime
to the size of the table, as many probes as there are slots reach every slot.
-/
import Mathlib.Data.Finset.Card
import Mathlib.Data.Nat.ModEq

namespace Praxis.Lib

open Finset

/-- The slot of the probe with the given number. -/
def probeSlot (size offset skip number : Nat) : Nat := (offset + number * skip) % size

variable {size offset skip : Nat}

theorem probeSlot_lt (hsize : 0 < size) (number : Nat) : probeSlot size offset skip number < size := Nat.mod_lt _ hsize

theorem probeSlot_injOn (hcoprime : size.Coprime skip) : Set.InjOn (probeSlot size offset skip) (range size : Set Nat) := by
  intro i hi j hj hslot
  have hi := mem_range.1 (mem_coe.1 hi)
  have hj := mem_range.1 (mem_coe.1 hj)
  have hstep : i * skip ≡ j * skip [MOD size] := Nat.ModEq.add_left_cancel' offset hslot
  have hmod : i ≡ j [MOD size] := Nat.ModEq.cancel_right_of_coprime hcoprime hstep
  exact hmod.eq_of_lt_of_lt hi hj

/-- Distinct probes that are as many as the slots leave no slot out. -/
theorem exists_probeSlot (hcoprime : size.Coprime skip) {slot : Nat} (hslot : slot < size) :
    ∃ number < size, probeSlot size offset skip number = slot := by
  have hsub : (range size).image (probeSlot size offset skip) ⊆ range size := by
    intro c hc
    obtain ⟨number, -, rfl⟩ := mem_image.1 hc
    exact mem_range.2 (probeSlot_lt (Nat.zero_lt_of_lt hslot) number)
  have hall := eq_of_subset_of_card_le hsub (card_image_of_injOn (probeSlot_injOn hcoprime)).ge
  obtain ⟨number, hnumber, heq⟩ := mem_image.1 (hall ▸ mem_range.2 hslot)
  exact ⟨number, mem_range.1 hnumber, heq⟩

end Praxis.Lib
