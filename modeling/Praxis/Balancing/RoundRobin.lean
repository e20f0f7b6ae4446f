/-
Weighted round robin. A tick is taken for every selection and its residue is looked up in the
running sums of the weights of the endpoints that may be picked. Whatever the health snapshot and
the exclusion list leave, a full turn of ticks picks each of them as often as it weighs.
-/
import Praxis.Balancing.Endpoint
import Praxis.Lib.Machine

namespace Praxis.Balancing

open List Option Praxis.Lib

/-- The selector, with its total computed once for its endpoints. -/
structure RoundRobin where
  endpoints : List WeightedEndpoint
  totalWeight : Nat
  counter : UInt64
  /-- The running scores of smooth round robin, one for each endpoint. -/
  smooth : List Int
  totalWeight_eq : totalWeight = weightOf WeightedEndpoint.weight endpoints
  smooth_length : smooth.length = endpoints.length

namespace RoundRobin

def new (endpoints : List WeightedEndpoint) : RoundRobin where
  endpoints := endpoints
  totalWeight := weightOf WeightedEndpoint.weight endpoints
  counter := 0
  smooth := replicate endpoints.length 0
  totalWeight_eq := rfl
  smooth_length := length_replicate

end RoundRobin

/-- The walk that finds the bucket of the tick among the endpoints that `keep` lets through. -/
def walkBuckets (endpoints : List WeightedEndpoint) (keep : WeightedEndpoint → Bool) (tick : Nat) : Option String :=
  let weight := weightOf WeightedEndpoint.weight (endpoints.filter keep)
  if weight = 0 then none
  else (bucket WeightedEndpoint.weight (tick % weight) 0 (endpoints.filter keep)).map WeightedEndpoint.address

/-- The bucket of the tick among all endpoints; past the last bucket it is the last endpoint. -/
def selectByWeight (endpoints : List WeightedEndpoint) (tick totalWeight : Nat) : Option String :=
  match bucket WeightedEndpoint.weight (tick % totalWeight) 0 endpoints with
  | some ep => some ep.address
  | none => endpoints.getLast?.map WeightedEndpoint.address

/-- The selection that looks at the exclusion list only. -/
def selectByWeightExcluding (endpoints : List WeightedEndpoint) (tick : Nat) (excl : List String) : Option String :=
  if excl.isEmpty then
    let total := weightOf WeightedEndpoint.weight endpoints
    if total = 0 then none else selectByWeight endpoints tick total
  else walkBuckets endpoints (fun ep => !isExcluded ep.address excl) tick

/-- The selection among the healthy endpoints, with a path of its own for an empty exclusion list. -/
def RoundRobin.selectHealthy (rr : RoundRobin) (tick : Nat) (state : ClusterHealthEntry) (excl : List String) :
    Option String :=
  if excl.isEmpty then walkBuckets rr.endpoints (fun ep => state.isAddressHealthy ep.address) tick
  else walkBuckets rr.endpoints (fun ep => state.isAddressHealthy ep.address && !isExcluded ep.address excl) tick

/-! ## Smooth round robin -/

def i64Max : Int := 2 ^ 63 - 1

/-- The nearest value of a signed 64-bit integer. -/
def saturate (x : Int) : Int := max (-2 ^ 63) (min x i64Max)

theorem saturate_eq {x : Int} (hlower : -2 ^ 63 ≤ x) (hupper : x ≤ i64Max) : saturate x = x := by
  rw [saturate, min_eq_left hupper, max_eq_right hlower]

/-- Whether the endpoint takes part in smooth round robin. -/
def smoothCandidate (endpoint : WeightedEndpoint) (health : Option ClusterHealthEntry) (excl : List String) : Bool :=
  if isExcluded endpoint.address excl then false
  else health.all fun state => state.isAddressHealthy endpoint.address

/-- What the loop over the endpoints carries. -/
structure SmoothScan where
  current : List Int
  best : Option (Nat × Int)
  total : Int

/-- The loop body for the endpoint at one position. -/
def smoothStep (health : Option ClusterHealthEntry) (excl : List String) (weights : EffectiveWeights)
    (scan : SmoothScan) : WeightedEndpoint × Nat → SmoothScan
  | (endpoint, pos) =>
    if !smoothCandidate endpoint health excl then scan
    else
      let weight := min (endpointWeight endpoint.address endpoint.weight (some weights) : Int) i64Max
      if weight ≤ 0 then scan
      else
        let score := saturate (scan.current.getD pos 0 + weight)
        { current := scan.current.set pos score
          total := saturate (scan.total + weight)
          best := if scan.best.all fun best => best.2 < score then some (pos, score) else scan.best }

/-- The whole loop. -/
def smoothScan (health : Option ClusterHealthEntry) (excl : List String) (weights : EffectiveWeights)
    (endpoints : List WeightedEndpoint) (smooth : List Int) : SmoothScan :=
  endpoints.zipIdx.foldl (smoothStep health excl weights) ⟨smooth, none, 0⟩

theorem length_smoothStep (health : Option ClusterHealthEntry) (excl : List String) (weights : EffectiveWeights)
    (scan : SmoothScan) (item : WeightedEndpoint × Nat) :
    (smoothStep health excl weights scan item).current.length = scan.current.length := by
  unfold smoothStep
  dsimp only
  split
  · rfl
  · split
    · rfl
    · exact length_set

theorem length_smoothScan (health : Option ClusterHealthEntry) (excl : List String) (weights : EffectiveWeights)
    (endpoints : List WeightedEndpoint) (smooth : List Int) :
    (smoothScan health excl weights endpoints smooth).current.length = smooth.length :=
  foldlRecOn (motive := fun scan : SmoothScan => scan.current.length = smooth.length) _ _ rfl
    fun scan hscan item _ => (length_smoothStep health excl weights scan item).trans hscan

namespace RoundRobin

/-- The winner of the loop is picked and its score lowered by the total. -/
def selectSmooth (rr : RoundRobin) (health : Option ClusterHealthEntry) (excl : List String)
    (weights : EffectiveWeights) : Option String × RoundRobin :=
  let scan := smoothScan health excl weights rr.endpoints rr.smooth
  have hlength : scan.current.length = rr.endpoints.length :=
    (length_smoothScan health excl weights rr.endpoints rr.smooth).trans rr.smooth_length
  match scan.best with
  | none => (none, { rr with smooth := scan.current, smooth_length := hlength })
  | some (pos, _) =>
    (rr.endpoints[pos]?.map WeightedEndpoint.address,
      { rr with
        smooth := scan.current.modify pos fun score => saturate (score - scan.total)
        smooth_length := (length_modify ..).trans hlength })

/-- The next endpoint, by smooth round robin while a ramp scales the weights. -/
def selectWeighted (rr : RoundRobin) (health : Option ClusterHealthEntry) (excl : List String)
    (weights : Option EffectiveWeights) : Option String × RoundRobin :=
  if rr.totalWeight = 0 then (none, rr)
  else
    match scalingWeights weights with
    | some weights => rr.selectSmooth health excl weights
    | none =>
      let tick := rr.counter.toNat
      let picked := (health.bind fun state => rr.selectHealthy tick state excl).or
        (selectByWeightExcluding rr.endpoints tick excl)
      (picked, { rr with counter := rr.counter + 1 })

end RoundRobin

/-! ## The three paths are one walk -/

variable {excl : List String}

theorem selectByWeightExcluding_eq {endpoints : List WeightedEndpoint} (tick : Nat) :
    selectByWeightExcluding endpoints tick excl
      = walkBuckets endpoints (fun ep => !isExcluded ep.address excl) tick := by
  cases excl with
  | cons => rfl
  | nil =>
    have hall : endpoints.filter (fun ep => !isExcluded ep.address []) = endpoints :=
      filter_eq_self.2 fun _ _ => rfl
    rw [selectByWeightExcluding, walkBuckets, if_pos isEmpty_nil, hall]
    dsimp only
    split
    case isTrue => rfl
    case isFalse hzero =>
      -- the walk ends in a bucket, so the last endpoint is never the fallback
      obtain ⟨ep, hep⟩ := isSome_iff_exists.1 (bucket_mod_isSome (Nat.pos_of_ne_zero hzero) tick)
      rw [selectByWeight, hep, map_some]

theorem RoundRobin.selectHealthy_eq {rr : RoundRobin} (tick : Nat) (state : ClusterHealthEntry) :
    rr.selectHealthy tick state excl = walkBuckets rr.endpoints (eligible (some state) excl) tick := by
  cases excl with
  | cons => rfl
  | nil =>
    have hkeep : (fun ep : WeightedEndpoint => state.isAddressHealthy ep.address) = eligible (some state) [] := by
      funext ep
      simp [eligible, healthyIn]
    rw [RoundRobin.selectHealthy, if_pos isEmpty_nil, hkeep]

variable {keep : WeightedEndpoint → Bool}

section

variable {endpoints : List WeightedEndpoint}
  (hpos : 0 < weightOf WeightedEndpoint.weight (endpoints.filter keep)) (tick : Nat)
include hpos

theorem walkBuckets_eq :
    walkBuckets endpoints keep tick
      = (bucket WeightedEndpoint.weight (tick % weightOf WeightedEndpoint.weight (endpoints.filter keep)) 0
          (endpoints.filter keep)).map WeightedEndpoint.address :=
  if_neg hpos.ne'

theorem walkBuckets_isSome : (walkBuckets endpoints keep tick).isSome := by
  rw [walkBuckets_eq hpos, isSome_map]
  exact bucket_mod_isSome hpos tick

end

namespace RoundRobin

variable {rr : RoundRobin} {health : Option ClusterHealthEntry} {excl : List String} {weights : Option EffectiveWeights}

section

variable (hidle : scalingWeights weights = none)
  (hpos : 0 < weightOf WeightedEndpoint.weight (rr.endpoints.filter (eligible health excl)))
include hidle hpos

/-- As long as an endpoint may be picked, a selection is the walk over those that may. -/
theorem selectWeighted_eq :
    rr.selectWeighted health excl weights
      = (walkBuckets rr.endpoints (eligible health excl) rr.counter.toNat, { rr with counter := rr.counter + 1 }) := by
  have htotal : rr.totalWeight ≠ 0 := by
    have hle := weightOf_filter_le WeightedEndpoint.weight (eligible health excl) rr.endpoints
    rw [rr.totalWeight_eq]
    omega
  rw [selectWeighted, if_neg htotal, hidle]
  dsimp only
  cases health with
  | none =>
    have hkeep : eligible none excl = fun ep => !isExcluded ep.address excl := by
      funext ep
      simp [eligible, healthyIn]
    rw [bind_none, none_or, selectByWeightExcluding_eq, hkeep]
  | some state =>
    rw [bind_some, selectHealthy_eq, or_of_isSome (walkBuckets_isSome hpos _)]

theorem answers_selectWeighted {n : Nat} (hticks : rr.counter.toNat + n ≤ 2 ^ 64) :
    answers (fun rr (_ : Unit) => rr.selectWeighted health excl weights) rr (replicate n ())
      = (range' rr.counter.toNat n).map (walkBuckets rr.endpoints (eligible health excl)) := by
  induction n generalizing rr with
  | zero => rfl
  | succ n ih =>
    rw [replicate_succ, answers, selectWeighted_eq hidle hpos, range'_succ, map_cons]
    -- the tick after the last one may wrap, but nothing is picked by it
    rcases n.eq_zero_or_pos with rfl | hn
    · rfl
    · have hnext : (rr.counter + 1).toNat = rr.counter.toNat + 1 := by
        rw [UInt64.toNat_add]
        exact Nat.mod_eq_of_lt (by rw [UInt64.toNat_one]; omega)
      rw [@ih { rr with counter := rr.counter + 1 } hpos (by dsimp only; omega), hnext]

end

/-- Over a whole turn of ticks each endpoint that may be picked is picked as often as it weighs, and no other. -/
theorem turn_fair (rr : RoundRobin) (health : Option ClusterHealthEntry) (excl : List String)
    (weights : Option EffectiveWeights) (hidle : scalingWeights weights = none)
    (hticks : rr.counter.toNat + weightOf WeightedEndpoint.weight (rr.endpoints.filter (eligible health excl)) ≤ 2 ^ 64) :
    let eligibles := rr.endpoints.filter (eligible health excl)
    let picks := answers (fun rr (_ : Unit) => rr.selectWeighted health excl weights) rr
      (List.replicate (weightOf WeightedEndpoint.weight eligibles) ())
    (∀ addr, picks.count (some addr) = weightOf WeightedEndpoint.weight (eligibles.filter (·.address == addr))) ∧
    ((rr.endpoints.map WeightedEndpoint.address).Nodup → ∀ ep ∈ eligibles, picks.count (some ep.address) = ep.weight) ∧
    ∀ pick ∈ picks, ∃ ep ∈ eligibles, pick = some ep.address := by
  intro eligibles picks
  rcases Nat.eq_zero_or_pos (weightOf WeightedEndpoint.weight eligibles) with hzero | hpos
  · have hnone : eligibles = [] :=
      not_not.1 fun hsome => hzero.not_gt ((weightOf_pos fun ep _ => ep.weight_pos).2 hsome)
    simp [picks, hnone, answers]
  · have hpicks : picks = (((List.range' rr.counter.toNat (weightOf WeightedEndpoint.weight eligibles)).map fun tick =>
        bucket WeightedEndpoint.weight (tick % weightOf WeightedEndpoint.weight eligibles) 0 eligibles).map
          (Option.map WeightedEndpoint.address)) := by
      rw [List.map_map]
      exact (answers_selectWeighted hidle hpos hticks).trans (List.map_congr_left fun tick _ => walkBuckets_eq hpos tick)
    have hcount : ∀ addr, picks.count (some addr)
        = weightOf WeightedEndpoint.weight (eligibles.filter (·.address == addr)) := by
      intro addr
      rw [← countP_window (·.address == addr) eligibles rr.counter.toNat, hpicks, List.count, List.countP_map]
      refine List.countP_congr fun pick _ => ?_
      cases pick <;> simp
    refine ⟨hcount, fun hnodup ep hep => ?_, fun pick hpick => ?_⟩
    · rw [hcount]
      exact weightOf_filter_key (hnodup.sublist (List.filter_sublist.map _)) hep
    · rw [hpicks, List.mem_map] at hpick
      obtain ⟨o, ho, rfl⟩ := hpick
      obtain ⟨tick, -, rfl⟩ := List.mem_map.1 ho
      obtain ⟨ep, hep⟩ := Option.isSome_iff_exists.1 (bucket_mod_isSome hpos tick)
      exact ⟨ep, mem_of_bucket hep, congrArg _ hep⟩

/-- Two of three endpoints are healthy, with weights one and two: three ticks pick the second of them twice. -/
theorem turn_fair_partial_health :
    let rr := RoundRobin.new
      [{ address := "10.0.0.1:80", weight := 1 }, { address := "10.0.0.2:80", weight := 2 },
        { address := "10.0.0.3:80", weight := 4 }]
    let health := some ⟨[("10.0.0.1:80", true), ("10.0.0.2:80", true), ("10.0.0.3:80", false)]⟩
    (answers (fun rr (_ : Unit) => rr.selectWeighted health [] none) rr (replicate 3 ())).count
      (some "10.0.0.2:80") = 2 := by
  intro rr health
  exact (turn_fair rr health [] none rfl (by decide)).1 "10.0.0.2:80"

end RoundRobin

end Praxis.Balancing
