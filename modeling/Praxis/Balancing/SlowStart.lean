/-
Slow start. A cluster keeps a clock for each endpoint that joined or recovered, and a pick scales
the weights by them. Once no clock runs, the pick is kept and returned again while membership,
weights, health and settings stay as they are. The curve of the ramp is any function.
-/
import Praxis.Balancing.SmoothRobin
import Praxis.Lib.FirstMax

namespace Praxis.Balancing

open List Praxis.Lib

structure SlowStartParams where
  window : Nat
  aggression : Float
deriving BEq

/-- One endpoint's place on the ramp; without a start it is at full weight. -/
structure EndpointRamp where
  startedAt : Option Nat
  healthy : Bool

/-- A pick that may be returned again. -/
structure SettledPick where
  observed : List (String × Nat × Bool)
  params : SlowStartParams
  weights : EffectiveWeights

abbrev RampTable := String → Option EndpointRamp

structure ClusterRamp where
  params : SlowStartParams
  seeded : Bool
  endpoints : RampTable
  settled : Option SettledPick

def addressHealthy (health : Option ClusterHealthEntry) (address : String) : Bool :=
  health.all fun state => state.isAddressHealthy address

def EndpointRamp.finished (entry : EndpointRamp) (now : Nat) (params : SlowStartParams) : Bool :=
  entry.startedAt.any fun started => params.window ≤ now - started

/-- What is passed to a pick. -/
structure Snapshot where
  params : SlowStartParams
  eps : List (String × Nat)
  health : Option ClusterHealthEntry
  now : Nat

/-- The addresses with their weights and health. -/
def Snapshot.observed (s : Snapshot) : List (String × Nat × Bool) :=
  s.eps.map fun ep => (ep.1, ep.2, addressHealthy s.health ep.1)

def SettledPick.isFor (pick : SettledPick) (s : Snapshot) : Bool :=
  if pick.params != s.params || pick.observed.length != s.eps.length then false
  else (pick.observed.zip s.eps).all fun ((address, weight, wasHealthy), (nextAddress, nextWeight)) =>
    address == nextAddress && weight == nextWeight && wasHealthy == addressHealthy s.health nextAddress

/-- `observe`, on the entry of the address. -/
def EndpointRamp.observe (entry : EndpointRamp) (s : Snapshot) (healthy : Bool) : EndpointRamp :=
  if !healthy then ⟨none, false⟩
  else if !entry.healthy then ⟨some s.now, true⟩
  else if entry.finished s.now s.params then { entry with startedAt := none }
  else entry

namespace RampTable

variable (table : RampTable) (s : Snapshot)

/-- Whether every endpoint is at full weight or down. -/
def isIdle : Bool := s.eps.all fun ep => (table ep.1).any fun entry => entry.startedAt.isNone

def seed : RampTable :=
  s.eps.foldl (fun table ep => Function.update table ep.1 (some ⟨none, addressHealthy s.health ep.1⟩)) table

def admitOne (address : String) : RampTable :=
  if (table address).isSome then table
  else
    let healthy := addressHealthy s.health address
    Function.update table address (some ⟨if healthy then some s.now else none, healthy⟩)

def admitNew : RampTable := s.eps.foldl (fun table ep => admitOne table s ep.1) table

def dropRemoved : RampTable := fun address => if address ∈ s.eps.map Prod.fst then table address else none

def observe (address : String) (healthy : Bool) : RampTable :=
  Function.update table address ((table address).map fun entry => entry.observe s healthy)

def trackHealth : RampTable :=
  s.eps.foldl (fun table ep => observe table s ep.1 (addressHealthy s.health ep.1)) table

end RampTable

open RampTable

namespace ClusterRamp

def reconcile (ramp : ClusterRamp) (s : Snapshot) : ClusterRamp :=
  { ramp with
    seeded := true
    endpoints := trackHealth
      (if ramp.seeded then dropRemoved (admitNew ramp.endpoints s) s else seed ramp.endpoints s) s }

section

variable (curve : SlowStartParams → Nat → Nat → Nat → Nat)

/-- `scaled_weight`; the curve is from the start of the window to now, for a configured weight. -/
def scaledWeight (entry : EndpointRamp) (configured : Nat) (s : Snapshot) : Nat :=
  if !entry.healthy then 0
  else match entry.startedAt with
    | none => configured * weightScale
    | some started => curve s.params started s.now configured

/-- Takes the scaled weight of an address in, and adds it to the total if the endpoint is healthy. -/
def addWeight (table : RampTable) (s : Snapshot) (acc : AList (fun _ : String => Nat) × Nat) (ep : String × Nat) :
    AList (fun _ : String => Nat) × Nat :=
  match table ep.1 with
  | none => (acc.1.insert ep.1 0, acc.2)
  | some entry =>
    let weight := scaledWeight curve entry ep.2 s
    (acc.1.insert ep.1 weight, if entry.healthy then min (acc.2 + weight) (2 ^ 64 - 1) else acc.2)

def scaledWeights (table : RampTable) (s : Snapshot) : EffectiveWeights :=
  let (byAddress, healthyTotal) := s.eps.foldl (addWeight curve table s) (∅, 0)
  { byAddress, fallback := healthyTotal == 0, scaling := !isIdle table s && decide (0 < healthyTotal) }

/-- What `weights` does without a settled pick. -/
def recompute (ramp : ClusterRamp) (s : Snapshot) : EffectiveWeights × ClusterRamp :=
  let ramp := { ramp with settled := none }.reconcile s
  let weights := scaledWeights curve ramp.endpoints s
  (weights, if isIdle ramp.endpoints s then { ramp with settled := some ⟨s.observed, s.params, weights⟩ } else ramp)

/-- `snapshot`, which sets the settings and asks for the weights. -/
def snapshot (ramp : ClusterRamp) (s : Snapshot) : EffectiveWeights × ClusterRamp :=
  let ramp := { ramp with params := s.params }
  match ramp.settled.filter (·.isFor s) with
  | some settled => (settled.weights, ramp)
  | none => ramp.recompute curve s

end

end ClusterRamp

/-! ## A pick that is kept -/

open ClusterRamp

/-- No clock runs at the addresses, and the table has their health. -/
def Steady (table : RampTable) (observed : List (String × Nat × Bool)) : Prop :=
  ∀ item ∈ observed, table item.1 = some ⟨none, item.2.2⟩

/-- What `addWeight` does while no clock runs. -/
def addSettled (acc : AList (fun _ : String => Nat) × Nat) (item : String × Nat × Bool) : AList (fun _ : String => Nat) × Nat :=
  let weight := if item.2.2 then item.2.1 * weightScale else 0
  (acc.1.insert item.1 weight, if item.2.2 then min (acc.2 + weight) (2 ^ 64 - 1) else acc.2)

/-- The weights while no clock runs. -/
def settledWeights (observed : List (String × Nat × Bool)) : EffectiveWeights :=
  let (byAddress, healthyTotal) := observed.foldl addSettled (∅, 0)
  { byAddress, fallback := healthyTotal == 0, scaling := false }

variable {curve : SlowStartParams → Nat → Nat → Nat → Nat} {table : RampTable} {s : Snapshot}

theorem observed_of_isFor {pick : SettledPick} (h : pick.isFor s = true) : pick.observed = s.observed := by
  unfold SettledPick.isFor at h
  split at h
  case isTrue => cases h
  case isFalse hsame =>
    simp only [Bool.or_eq_true, bne_iff_ne, not_or, not_not] at hsame
    refine ext_getElem (by simp [Snapshot.observed, hsame.2]) fun i hi hi' => ?_
    have hitem := all_eq_true.1 h _ (getElem_mem (by simp [hi]; omega : i < (pick.observed.zip s.eps).length))
    simp only [getElem_zip, Bool.and_eq_true, beq_iff_eq] at hitem
    simp only [Snapshot.observed, getElem_map]
    exact Prod.ext hitem.1.1 (Prod.ext hitem.1.2 hitem.2)

section

variable (hsteady : Steady table s.observed)
include hsteady

theorem Steady.entry {ep : String × Nat} (hep : ep ∈ s.eps) : table ep.1 = some ⟨none, addressHealthy s.health ep.1⟩ :=
  hsteady _ (mem_map_of_mem hep)

theorem Steady.isIdle : isIdle table s = true := by
  refine all_eq_true.2 fun ep hep => ?_
  rw [hsteady.entry hep]
  rfl

/-- The weights of a steady table do not depend on the time, the settings or the rest of the table. -/
theorem Steady.scaledWeights_eq : scaledWeights curve table s = settledWeights s.observed := by
  have hfold : s.eps.foldl (addWeight curve table s) (∅, 0) = s.observed.foldl addSettled (∅, 0) := by
    rw [Snapshot.observed, foldl_map]
    refine foldl_ext _ _ _ fun acc ep hep => ?_
    rw [addWeight, hsteady.entry hep]
    cases addressHealthy s.health ep.1 <;> simp [scaledWeight, addSettled]
  simp only [scaledWeights, settledWeights, hfold, hsteady.isIdle, Bool.not_true, Bool.false_and]

theorem Steady.reconcile : Steady (trackHealth (dropRemoved (admitNew table s) s) s) s.observed := by
  -- no address is new, those dropped were not asked for, and no health has changed
  have hadmitted : admitNew table s = table := foldl_of_fixed fun ep hep => by
    rw [admitOne, hsteady.entry hep]
    rfl
  have hdrop : Steady (dropRemoved table s) s.observed := by
    intro item hitem
    obtain ⟨ep, hep, rfl⟩ := mem_map.1 hitem
    rw [dropRemoved, if_pos (mem_map_of_mem hep)]
    exact hsteady.entry hep
  have htrack : trackHealth (dropRemoved table s) s = dropRemoved table s := foldl_of_fixed fun ep hep => by
    have hsame : (table.dropRemoved s ep.1).map (fun entry => entry.observe s (addressHealthy s.health ep.1)) =
        table.dropRemoved s ep.1 := by
      rw [hdrop.entry hep]
      cases addressHealthy s.health ep.1 <;> rfl
    rw [RampTable.observe, hsame, Function.update_eq_self]
  rw [hadmitted, htrack]
  exact hdrop

end

/-- The health of an entry is the one observed. -/
def HealthOf (s : Snapshot) (address : String) (table : RampTable) : Prop :=
  ∀ entry, table address = some entry → entry.healthy = addressHealthy s.health address

theorem healthy_observe (entry : EndpointRamp) (healthy : Bool) : (entry.observe s healthy).healthy = healthy := by
  unfold EndpointRamp.observe
  cases healthy <;> cases hentry : entry.healthy <;> simp [hentry, apply_ite EndpointRamp.healthy]

theorem healthOf_observe {address seen : String} (h : seen = address ∨ HealthOf s address table) :
    HealthOf s address (RampTable.observe table s seen (addressHealthy s.health seen)) := by
  intro entry hentry
  unfold RampTable.observe at hentry
  -- an observation sets the health of its own address and leaves the others
  by_cases hseen : seen = address
  · subst hseen
    rw [Function.update_self] at hentry
    obtain ⟨before, -, rfl⟩ := Option.map_eq_some_iff.1 hentry
    exact healthy_observe before _
  · rw [Function.update_of_ne (Ne.symm hseen)] at hentry
    exact h.resolve_left hseen entry hentry

/-- The loop leaves the health of the addresses it has passed. -/
theorem healthOf_trackHealth {address : String} {eps : List (String × Nat)}
    (h : address ∈ eps.map Prod.fst ∨ HealthOf s address table) : HealthOf s address
      (eps.foldl (fun table ep => RampTable.observe table s ep.1 (addressHealthy s.health ep.1)) table) := by
  induction eps generalizing table with
  | nil => exact h.resolve_left not_mem_nil
  | cons ep eps ih =>
    rw [map_cons, mem_cons] at h
    rw [foldl_cons]
    rcases h with (rfl | hmem) | hbefore
    · exact ih (.inr (healthOf_observe (.inl rfl)))
    · exact ih (.inl hmem)
    · exact ih (.inr (healthOf_observe (.inr hbefore)))

theorem steady_of_isIdle (hidle : isIdle (trackHealth table s) s = true) : Steady (trackHealth table s) s.observed := by
  intro item hitem
  obtain ⟨ep, hep, rfl⟩ := mem_map.1 hitem
  have hentry := all_eq_true.1 hidle ep hep
  have hhealth : HealthOf s ep.1 (trackHealth table s) := healthOf_trackHealth (.inl (mem_map_of_mem hep))
  -- an entry without a clock, with the health that the loop left in it
  rcases htable : trackHealth table s ep.1 with _ | ⟨_ | started, healthy⟩
  · simp [htable] at hentry
  · exact congrArg (some ∘ EndpointRamp.mk none) (hhealth _ htable)
  · simp [htable] at hentry

/-- What the settled pick was made from still holds. -/
def ClusterRamp.Inv (ramp : ClusterRamp) : Prop := ∀ pick, ramp.settled = some pick →
  ramp.seeded = true ∧ Steady ramp.endpoints pick.observed ∧ pick.weights = settledWeights pick.observed

theorem recompute_inv (ramp : ClusterRamp) : (ramp.recompute curve s).2.Inv := by
  intro pick hpick
  unfold recompute at hpick ⊢
  dsimp only at hpick ⊢
  split at hpick
  case isFalse => cases hpick
  case isTrue hidle =>
    cases hpick
    have hsteady := steady_of_isIdle hidle
    rw [if_pos hidle]
    exact ⟨rfl, hsteady, hsteady.scaledWeights_eq⟩

/-- A snapshot returns what recomputing returns, and keeps what is known of the settled pick. -/
theorem snapshot_step {ramp : ClusterRamp} (hinv : ramp.Inv) (s : Snapshot) :
    (ramp.snapshot curve s).1 = (ramp.recompute curve s).1 ∧ (ramp.snapshot curve s).2.Inv := by
  unfold snapshot
  dsimp only
  split
  case h_2 => exact ⟨rfl, recompute_inv _⟩
  case h_1 pick hpick =>
    obtain ⟨hsettled, hfor⟩ := Option.filter_eq_some_iff.1 hpick
    obtain ⟨hseeded, hsteady, hweights⟩ := hinv pick hsettled
    rw [observed_of_isFor hfor] at hsteady hweights
    refine ⟨?_, hinv⟩
    -- the pick was made for what is asked for now, and reconciling with that changes no weight
    have hagain := hsteady.reconcile
    simp only [recompute, reconcile, hseeded, if_true]
    rw [hagain.scaledWeights_eq, hweights]

theorem inv_stateAfter (snapshots : List Snapshot) {ramp : ClusterRamp} (hinv : ramp.Inv) :
    (stateAfter (snapshot curve) ramp snapshots).Inv := by
  induction snapshots generalizing ramp with
  | nil => exact hinv
  | cons s rest ih => exact ih (snapshot_step hinv s).2

/-- The settled pick cannot be told from recomputing the weights, after any snapshots. -/
theorem settled_pick_invisible (curve : SlowStartParams → Nat → Nat → Nat → Nat) (ramp : ClusterRamp)
    (hfresh : ramp.settled = none) (snapshots : List Snapshot) (s : Snapshot) :
    let before := stateAfter (snapshot curve) ramp snapshots
    (before.snapshot curve s).1 = (before.recompute curve s).1 := by
  have hinv : ramp.Inv := by
    intro pick hpick
    rw [hfresh] at hpick
    cases hpick
  exact (snapshot_step (inv_stateAfter snapshots hinv) s).1

/-- The second snapshot is answered from the first. -/
theorem settled_pick_invisible_twice :
    let s : Snapshot := ⟨⟨30, 1⟩, [("a:80", 1)], none, 0⟩
    let before := stateAfter (snapshot fun _ _ _ _ => 0) ⟨s.params, false, fun _ => none, none⟩ [s]
    (before.snapshot (fun _ _ _ _ => 0) s).1 = (before.recompute (fun _ _ _ _ => 0) s).1 := by
  intro s before
  exact settled_pick_invisible _ _ rfl [s] s

end Praxis.Balancing
