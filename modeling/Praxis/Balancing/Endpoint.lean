/-
What the load-balancing strategies choose from: the weighted endpoints of a cluster, the health
snapshot and the exclusion list they are filtered by, and the weights of a slow-start ramp.
-/
import Mathlib.Data.List.AList
import Praxis.Lib.Weighted

namespace Praxis.Balancing

open Praxis.Lib

/-- An endpoint that carries its own weight. -/
structure WeightedEndpoint where
  address : String
  weight : Nat
  metadata : AList (fun _ : String => String) := ∅
  priority : Nat := 0
  zone : Option String := none
  /-- The configuration rejects a weight of zero. -/
  weight_pos : 1 ≤ weight := by decide

/-- The health of a cluster: one address and health flag for each endpoint the cluster tracks. -/
structure ClusterHealthEntry where
  endpoints : List (String × Bool)

namespace ClusterHealthEntry

/-- The index is built from the whole list, so the last entry of an address is the one it names. -/
def endpointIndex (state : ClusterHealthEntry) (addr : String) : Option (String × Bool) :=
  state.endpoints.reverse.find? (·.1 == addr)

/-- An address that is not tracked counts as healthy. -/
def isAddressHealthy (state : ClusterHealthEntry) (addr : String) : Bool :=
  (state.endpointIndex addr).all (·.2)

end ClusterHealthEntry

/-- Whether the address was already attempted for this request. -/
def isExcluded (addr : String) (exclude : List String) : Bool := exclude.any (· == addr)

@[simp] theorem isExcluded_nil (addr : String) : isExcluded addr [] = false := rfl

/-- Whether the endpoint passes the health gate; without a snapshot there is none. -/
def healthyIn (health : Option ClusterHealthEntry) (ep : WeightedEndpoint) : Bool :=
  health.all fun state => state.isAddressHealthy ep.address

/-- Whether the endpoint may be picked: it passes the health gate and was not attempted before. -/
def eligible (health : Option ClusterHealthEntry) (exclude : List String) (ep : WeightedEndpoint) : Bool :=
  healthyIn health ep && !isExcluded ep.address exclude

/-! ## Slow start -/

/-- The weight of each endpoint for one selection. -/
structure EffectiveWeights where
  byAddress : AList (fun _ : String => Nat)
  /-- Every healthy endpoint is still at zero, so this pick uses the configured weights. -/
  fallback : Bool
  /-- Some healthy endpoint is still inside its window. -/
  scaling : Bool

namespace EffectiveWeights

def of (weights : EffectiveWeights) (address : String) (configured : Nat) : Nat :=
  if weights.fallback then configured else (weights.byAddress.lookup address).getD 0

def scalesCapacity (weights : EffectiveWeights) : Bool := weights.scaling

end EffectiveWeights

/-- The weights that change a pick. -/
def scalingWeights (weights : Option EffectiveWeights) : Option EffectiveWeights :=
  weights.filter EffectiveWeights.scalesCapacity

/-- The weight of one endpoint, from the ramp when there is one. -/
def endpointWeight (address : String) (configured : Nat) (weights : Option EffectiveWeights) : Nat :=
  match weights with
  | some weights => weights.of address configured
  | none => configured

end Praxis.Balancing
