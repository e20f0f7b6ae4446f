/-
Least connections. The endpoints that may be picked are ranked by a rotation and scanned for the
one with the fewest requests in flight; while a ramp scales the weights, load counts against the
weight reached so far. Fractions are compared by cross products, which are exact unless a counter
is at its end.
-/
import Mathlib.Algebra.Order.Field.Basic
import Mathlib.Data.Prod.Lex
import Mathlib.Data.Rat.Cast.Order
import Praxis.Balancing.SmoothRobin
import Praxis.Lib.FirstMax

namespace Praxis.Balancing

open List Praxis.Lib

/-- The cost of the next request on an endpoint, against another one; sums stop at 64 bits and products at 128. -/
def rampLoadCost (load configured otherScaled : Nat) : Nat :=
  let u128Max := 2 ^ 128 - 1
  min (min (min (load + 1) (2 ^ 64 - 1) * configured) u128Max * otherScaled) u128Max

structure LeastConnections where
  endpoints : List WeightedEndpoint
  /-- Requests in flight, by position. -/
  counters : List Nat
  rrCounter : UInt64

/-- An endpoint that is compared in a scan. -/
structure Contender extends WeightedEndpoint where
  rank : Nat
  load : Nat
  pos : Nat

namespace Contender

/-- What a scan returns of it. -/
def found (c : Contender) : Nat × Nat := (c.pos, c.load)

def scaled (weights : Option EffectiveWeights) (c : Contender) : Nat := endpointWeight c.address c.weight weights

end Contender

namespace LeastConnections

variable (lc : LeastConnections)

/-- The endpoints that `keep` lets through, ranked from the offset on. -/
def contenders (keep : WeightedEndpoint → Bool) (offset : Nat) : List Contender :=
  let kept := lc.endpoints.zipIdx.filter fun item => keep item.1
  let len := kept.length
  let start := offset % len
  kept.zipIdx.map fun ((ep, pos), filteredIndex) =>
    { ep with rank := (filteredIndex + len - start) % len, load := lc.counters.getD pos 0, pos }

def selectFromCandidates (keep : WeightedEndpoint → Bool) (offset : Nat) : Option (Nat × Nat) :=
  (scanBest (fun c best =>
    c.load < best.load || c.load == best.load && best.weight < c.weight
      || c.load == best.load && c.weight == best.weight && c.rank < best.rank)
    (lc.contenders keep offset)).map Contender.found

variable (health : Option ClusterHealthEntry) (excl : List String) (weights : Option EffectiveWeights)

/-- The endpoints that `find_scaled` compares. -/
def rampKeep (ep : WeightedEndpoint) : Bool :=
  decide (0 < endpointWeight ep.address ep.weight weights) && !isExcluded ep.address excl && healthyIn health ep

def findScaled : Option (Nat × Nat) :=
  (scanBest (fun c best =>
    let left := rampLoadCost c.load c.weight (best.scaled weights)
    let right := rampLoadCost best.load best.weight (c.scaled weights)
    left < right || left == right && best.weight < c.weight
      || left == right && c.weight == best.weight && c.rank < best.rank)
    (lc.contenders (rampKeep health excl weights) lc.rrCounter.toNat)).map Contender.found

end LeastConnections

/-! ## The least endpoint -/

namespace Contender

/-- First the cost, then the larger weight, then the rank. -/
def key {κ : Type} (c : Contender) (cost : κ) : κ ×ₗ ℕᵒᵈ ×ₗ ℕ := toLex (cost, toLex (.toDual c.weight, c.rank))

/-- The load with the next request, for each unit of the weight reached. -/
def cost (weights : Option EffectiveWeights) (c : Contender) : ℚ := (c.load + 1) * c.weight / c.scaled weights

variable {c d : Contender}

theorem key_lt_iff {κ : Type} [LinearOrder κ] {x y : κ} : c.key x < d.key y ↔
    x < y ∨ x = y ∧ (d.weight < c.weight ∨ c.weight = d.weight ∧ c.rank < d.rank) := by
  simp only [key, Prod.Lex.toLex_lt_toLex, OrderDual.toDual_lt_toDual, OrderDual.toDual_inj]

section

variable {weights : Option EffectiveWeights} (hc : 0 < c.scaled weights) (hd : 0 < d.scaled weights)
include hc hd

theorem cost_lt_iff : c.cost weights < d.cost weights ↔
    (c.load + 1) * c.weight * d.scaled weights < (d.load + 1) * d.weight * c.scaled weights := by
  unfold cost
  rw [div_lt_div_iff₀ (by exact_mod_cast hc) (by exact_mod_cast hd)]
  norm_cast

theorem cost_eq_iff : c.cost weights = d.cost weights ↔
    (c.load + 1) * c.weight * d.scaled weights = (d.load + 1) * d.weight * c.scaled weights := by
  unfold cost
  rw [div_eq_div_iff (by exact_mod_cast hc.ne') (by exact_mod_cast hd.ne')]
  norm_cast

end

end Contender

theorem rampLoadCost_eq {load configured scaled : Nat} (hload : load < 2 ^ 64 - 1) (hconfigured : configured ≤ maxEndpointWeight)
    (hscaled : scaled ≤ maxEndpointWeight * weightScale) : rampLoadCost load configured scaled = (load + 1) * configured * scaled := by
  -- the limits of the configuration keep the products far below 128 bits
  have hproduct : (load + 1) * configured ≤ 2 ^ 64 * maxEndpointWeight := Nat.mul_le_mul (by omega) hconfigured
  have hcost := Nat.mul_le_mul hproduct hscaled
  unfold rampLoadCost
  dsimp only
  rw [Nat.min_eq_left (show load + 1 ≤ _ by omega), Nat.min_eq_left (hproduct.trans (by decide)),
    Nat.min_eq_left (hcost.trans (by decide))]

namespace LeastConnections

variable {lc : LeastConnections}

theorem mem_contenders {keep : WeightedEndpoint → Bool} {offset : Nat} {c : Contender} (hc : c ∈ lc.contenders keep offset) :
    c.toWeightedEndpoint ∈ lc.endpoints ∧ keep c.toWeightedEndpoint = true ∧ c.load = lc.counters.getD c.pos 0 := by
  obtain ⟨⟨⟨ep, pos⟩, i⟩, hitem, rfl⟩ := mem_map.1 hc
  obtain ⟨hmem, hkeep⟩ := mem_filter.1 (fst_mem_of_mem_zipIdx hitem)
  exact ⟨fst_mem_of_mem_zipIdx hmem, hkeep, rfl⟩

theorem counter_lt (hload : ∀ load ∈ lc.counters, load < 2 ^ 64 - 1) (pos : Nat) : lc.counters.getD pos 0 < 2 ^ 64 - 1 := by
  rcases Nat.lt_or_ge pos lc.counters.length with hlt | hge
  · rw [getD_eq_getElem _ _ hlt]
    exact hload _ (getElem_mem hlt)
  · rw [getD_eq_default _ _ hge]
    decide

/-- The scan with the ramp finds the endpoint that is least by the cost as a fraction, then by the larger weight, then by
rank, if no counter is at its end. Without a ramp it is the one least by load, then by the larger weight, then by rank. -/
theorem picks_least (lc : LeastConnections) (health : Option ClusterHealthEntry) (excl : List String)
    (weights : Option EffectiveWeights) :
    ((∀ load ∈ lc.counters, load < 2 ^ 64 - 1) →
      (∀ ep ∈ lc.endpoints, ep.weight ≤ maxEndpointWeight ∧
        endpointWeight ep.address ep.weight weights ≤ maxEndpointWeight * weightScale) →
      lc.findScaled health excl weights = ((lc.contenders (rampKeep health excl weights) lc.rrCounter.toNat).argmin
        fun c => c.key (c.cost weights)).map Contender.found) ∧
    ∀ keep offset, lc.selectFromCandidates keep offset
      = ((lc.contenders keep offset).argmin fun c => c.key c.load).map Contender.found := by
  refine ⟨fun hload hweights => ?_, fun keep offset => ?_⟩
  · refine congrArg (Option.map Contender.found) (scanBest_eq_argmin fun c hc d hd => ?_)
    obtain ⟨hcmem, hckeep, hcload⟩ := mem_contenders hc
    obtain ⟨hdmem, hdkeep, hdload⟩ := mem_contenders hd
    simp only [rampKeep, Bool.and_eq_true, decide_eq_true_eq] at hckeep hdkeep
    -- the products are exact, so they compare as the fractions do
    have hleft : rampLoadCost c.load c.weight (d.scaled weights) = _ :=
      rampLoadCost_eq (hcload ▸ counter_lt hload _) (hweights _ hcmem).1 (hweights _ hdmem).2
    have hright : rampLoadCost d.load d.weight (c.scaled weights) = _ :=
      rampLoadCost_eq (hdload ▸ counter_lt hload _) (hweights _ hdmem).1 (hweights _ hcmem).2
    rw [hleft, hright, Bool.eq_iff_iff, decide_eq_true_eq, Contender.key_lt_iff,
      Contender.cost_lt_iff hckeep.1.1 hdkeep.1.1, Contender.cost_eq_iff hckeep.1.1 hdkeep.1.1]
    simp [and_or_left, or_assoc, and_assoc]
  · refine congrArg (Option.map Contender.found) (scanBest_eq_argmin fun c _ d _ => ?_)
    rw [Bool.eq_iff_iff, decide_eq_true_eq, Contender.key_lt_iff]
    simp [and_or_left, or_assoc, and_assoc]

/-- Of two endpoints with one request each, one is twice as heavy. -/
theorem picks_least_pair :
    let lc : LeastConnections := ⟨[{ address := "a:80", weight := 1 }, { address := "b:80", weight := 2 }], [1, 1], 0⟩
    lc.findScaled none [] none
      = ((lc.contenders (rampKeep none [] none) 0).argmin fun c => c.key (c.cost none)).map Contender.found := by
  intro lc
  exact (picks_least lc none [] none).1 (by decide) (by decide)

/-- At the end of the counter the next request is not counted, and the endpoint with the greater load is picked. -/
theorem picks_least_saturated :
    let lc : LeastConnections :=
      ⟨[{ address := "a:80", weight := 1 }, { address := "b:80", weight := 1 }], [2 ^ 64 - 1, 2 ^ 64 - 2], 0⟩
    lc.findScaled none [] none = some (0, 2 ^ 64 - 1) := by decide

end LeastConnections

end Praxis.Balancing
