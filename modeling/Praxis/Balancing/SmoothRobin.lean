/-
Smooth round robin is exactly fair. Within the limits of the configuration no score saturates, so
a selection is one turn of the integer scheme: its loop finds a candidate with the greatest raised
score. After as many selections as the weights sum to, every candidate has had its share.
-/
import Praxis.Balancing.RoundRobin
import Praxis.Lib.Slots
import Praxis.Lib.Smooth

namespace Praxis.Balancing

open List Option Nat Praxis.Lib

/-- The most endpoints the configuration accepts for a cluster. -/
def maxEndpoints : Nat := 10000

/-- The greatest weight the configuration accepts for an endpoint. -/
def maxEndpointWeight : Nat := 1000

/-- The ramp counts in these units of a configured weight. -/
def weightScale : Nat := 1000000

/-- What the configuration and the ramp promise of the endpoints of a cluster. -/
structure WithinLimits (eps : List WeightedEndpoint) (weights : EffectiveWeights) : Prop where
  length_le : eps.length ≤ maxEndpoints
  weight_le : ∀ ep ∈ eps,
    endpointWeight ep.address ep.weight (some weights) ≤ maxEndpointWeight * weightScale
  nodup : (eps.map WeightedEndpoint.address).Nodup

section

variable (health : Option ClusterHealthEntry) (excl : List String) (weights : EffectiveWeights)

/-- The weight an endpoint has in a selection; it is zero when it does not take part. -/
def smoothWeight (eps : List WeightedEndpoint) (pos : Nat) : Nat :=
  eps[pos]?.elim 0 fun ep =>
    if smoothCandidate ep health excl then endpointWeight ep.address ep.weight (some weights) else 0

/-- The positions of the endpoints that take part. -/
def smoothCandidates (eps : List WeightedEndpoint) : Finset Nat :=
  (Finset.range eps.length).filter fun pos => 0 < smoothWeight health excl weights eps pos

/-- What the loop has found at position `k`. -/
structure Scanned (eps : List WeightedEndpoint) (smooth : List Int) (k : Nat) (scan : SmoothScan) : Prop where
  current : ∀ pos, scan.current.getD pos 0
    = smooth.getD pos 0 + if pos < k then (smoothWeight health excl weights eps pos : Int) else 0
  total : scan.total = ∑ pos ∈ Finset.range k, (smoothWeight health excl weights eps pos : Int)
  best_none : scan.best = none → ∀ pos < k, smoothWeight health excl weights eps pos = 0
  best_some : ∀ best score, scan.best = some (best, score) →
    best < k ∧ 0 < smoothWeight health excl weights eps best ∧
    score = smooth.getD best 0 + smoothWeight health excl weights eps best ∧
    ∀ pos < k, 0 < smoothWeight health excl weights eps pos →
      smooth.getD pos 0 + smoothWeight health excl weights eps pos ≤ score

/-- Nothing the loop computes leaves the 64-bit range. -/
structure Unsaturated (eps : List WeightedEndpoint) (smooth : List Int) : Prop where
  weight_le : ∀ pos, (smoothWeight health excl weights eps pos : Int) ≤ i64Max
  total_le : ∑ pos ∈ Finset.range eps.length, (smoothWeight health excl weights eps pos : Int) ≤ i64Max
  lower : ∀ pos, 0 < smoothWeight health excl weights eps pos → -2 ^ 63 ≤ smooth.getD pos 0
  upper : ∀ pos, 0 < smoothWeight health excl weights eps pos →
    smooth.getD pos 0 + smoothWeight health excl weights eps pos ≤ i64Max

end

section

variable {health : Option ClusterHealthEntry} {excl : List String} {weights : EffectiveWeights}
  {eps : List WeightedEndpoint} {smooth : List Int} {pos k : Nat} {ep : WeightedEndpoint}

theorem smoothWeight_eq (hep : eps[pos]? = some ep) :
    smoothWeight health excl weights eps pos
      = if smoothCandidate ep health excl then endpointWeight ep.address ep.weight (some weights) else 0 := by
  rw [smoothWeight, hep, elim_some]

theorem candidate_of_smoothWeight_pos (hep : eps[pos]? = some ep)
    (hpos : 0 < smoothWeight health excl weights eps pos) : smoothCandidate ep health excl := by
  rw [smoothWeight_eq hep] at hpos
  by_contra hnot
  rw [if_neg hnot] at hpos
  exact lt_irrefl 0 hpos

theorem lt_of_smoothWeight_pos (hpos : 0 < smoothWeight health excl weights eps pos) : pos < eps.length := by
  by_contra! hge
  rw [smoothWeight, getElem?_eq_none hge] at hpos
  exact lt_irrefl 0 hpos

@[simp] theorem mem_smoothCandidates : pos ∈ smoothCandidates health excl weights eps ↔
    0 < smoothWeight health excl weights eps pos := by
  rw [smoothCandidates, Finset.mem_filter, Finset.mem_range]
  exact ⟨And.right, fun hpos => ⟨lt_of_smoothWeight_pos hpos, hpos⟩⟩

theorem smoothStep_eq (hep : eps[k]? = some ep) (hle : (smoothWeight health excl weights eps k : Int) ≤ i64Max)
    (scan : SmoothScan) :
    smoothStep health excl weights scan (ep, k)
      = if smoothWeight health excl weights eps k = 0 then scan
        else
          let score := saturate (scan.current.getD k 0 + smoothWeight health excl weights eps k)
          { current := scan.current.set k score
            total := saturate (scan.total + smoothWeight health excl weights eps k)
            best := if scan.best.all fun best => best.2 < score then some (k, score) else scan.best } := by
  rw [smoothWeight_eq hep] at hle ⊢
  unfold smoothStep
  cases hcandidate : smoothCandidate ep health excl with
  | false => simp [hcandidate]
  | true =>
    rw [hcandidate, if_pos rfl] at hle
    simp only [hcandidate, if_true, min_eq_left hle, Bool.not_true, Bool.false_eq_true, if_false]
    exact if_congr (by omega) rfl rfl

theorem Scanned.skip {scan : SmoothScan} (hzero : smoothWeight health excl weights eps k = 0)
    (h : Scanned health excl weights eps smooth k scan) :
    Scanned health excl weights eps smooth (k + 1) scan where
  current pos := by
    rw [h.current pos]
    rcases eq_or_ne pos k with rfl | hne
    · simp [hzero]
    · exact congrArg _ (if_congr (by omega) rfl rfl)
  total := by rw [h.total, Finset.sum_range_succ, hzero, cast_zero, add_zero]
  best_none hbest := forall_lt_succ_right.2 ⟨h.best_none hbest, hzero⟩
  best_some best score hbest := by
    obtain ⟨hlt, hpos, hscore, hgreatest⟩ := h.best_some best score hbest
    exact ⟨by omega, hpos, hscore, forall_lt_succ_right.2 ⟨hgreatest, fun hk => by omega⟩⟩

/-- An endpoint that takes part raises its score and the total, and it leads if it beats the best so far. -/
theorem Scanned.step {scan : SmoothScan} (hep : eps[k]? = some ep)
    (hexact : Unsaturated health excl weights eps smooth) (hlength : scan.current.length = eps.length)
    (h : Scanned health excl weights eps smooth k scan) :
    Scanned health excl weights eps smooth (k + 1) (smoothStep health excl weights scan (ep, k)) := by
  have hk : k < eps.length := (List.getElem?_eq_some_iff.1 hep).1
  rw [smoothStep_eq hep (hexact.weight_le k)]
  split
  case isTrue hzero => exact h.skip hzero
  case isFalse hne =>
    have hpos : 0 < smoothWeight health excl weights eps k := Nat.pos_of_ne_zero hne
    have hscore : saturate (scan.current.getD k 0 + smoothWeight health excl weights eps k)
        = smooth.getD k 0 + smoothWeight health excl weights eps k := by
      rw [h.current k, if_neg (Nat.lt_irrefl k), add_zero]
      exact saturate_eq (by have := hexact.lower k hpos; omega) (hexact.upper k hpos)
    have htotal : saturate (scan.total + smoothWeight health excl weights eps k)
        = ∑ pos ∈ Finset.range (k + 1), (smoothWeight health excl weights eps pos : Int) := by
      rw [h.total, ← Finset.sum_range_succ]
      refine saturate_eq ?_ (le_trans ?_ hexact.total_le)
      · exact le_trans (by norm_num) (Finset.sum_nonneg fun pos _ => Int.natCast_nonneg _)
      · exact Finset.sum_le_sum_of_subset_of_nonneg (Finset.range_subset_range.2 hk) fun pos _ _ => Int.natCast_nonneg _
    dsimp only
    rw [hscore, htotal]
    refine ⟨fun pos => ?_, rfl, fun hbest => ?_, fun best score hbest => ?_⟩
    · rw [getD_set (hlength ▸ hk)]
      rcases eq_or_ne pos k with rfl | hne
      · rw [if_pos rfl, if_pos (Nat.lt_succ_self pos)]
      · rw [if_neg hne, h.current pos]
        exact congrArg _ (if_congr (by omega) rfl rfl)
    · split at hbest
      case isTrue => cases hbest
      case isFalse hkept => exact absurd (by rw [hbest]; rfl) hkept
    · split at hbest
      case isTrue hbeaten =>
        cases hbest
        refine ⟨Nat.lt_succ_self k, hpos, rfl, Nat.forall_lt_succ_right.2 ⟨fun pos hlt hw => ?_, fun _ => le_rfl⟩⟩
        cases hold : scan.best with
        | none => exact absurd (h.best_none hold pos hlt) hw.ne'
        | some old =>
          rw [hold, Option.all_some, decide_eq_true_iff] at hbeaten
          exact ((h.best_some old.1 old.2 hold).2.2.2 pos hlt hw).trans hbeaten.le
      case isFalse hkept =>
        obtain ⟨hlt, hw, rfl, hgreatest⟩ := h.best_some best score hbest
        rw [hbest, Option.all_some, decide_eq_true_iff, not_lt] at hkept
        exact ⟨by omega, hw, rfl, Nat.forall_lt_succ_right.2 ⟨hgreatest, fun _ => hkept⟩⟩

theorem scanned_smoothScan (hexact : Unsaturated health excl weights eps smooth)
    (hlength : smooth.length = eps.length) :
    Scanned health excl weights eps smooth eps.length
      (smoothScan health excl weights eps smooth) := by
  -- from position `k` on, with the endpoints that are left
  have hrest : ∀ (rest : List WeightedEndpoint) (k : Nat) (scan : SmoothScan), eps.drop k = rest →
      k ≤ eps.length → scan.current.length = eps.length →
      Scanned health excl weights eps smooth k scan →
      Scanned health excl weights eps smooth eps.length
        ((rest.zipIdx k).foldl (smoothStep health excl weights) scan) := by
    intro rest
    induction rest with
    | nil =>
      intro k scan hdrop hk _ h
      rw [List.drop_eq_nil_iff] at hdrop
      exact le_antisymm hk hdrop ▸ h
    | cons ep rest ih =>
      intro k scan hdrop hk hlen h
      have hep : eps[k]? = some ep := by rw [← List.head?_drop, hdrop, List.head?_cons]
      rw [List.zipIdx_cons, List.foldl_cons]
      refine ih (k + 1) _ ?_ (List.getElem?_eq_some_iff.1 hep).1 ((length_smoothStep ..).trans hlen) (h.step hep hexact hlen)
      rw [← List.drop_drop, hdrop, List.drop_one, List.tail_cons]
  refine hrest eps 0 _ rfl (Nat.zero_le _) hlength ⟨fun pos => ?_, rfl, fun _ pos hpos => ?_, ?_⟩
  · rw [if_neg (Nat.not_lt_zero pos), add_zero]
  · omega
  · simp

end

/-! ## Selections -/

section

variable {health : Option ClusterHealthEntry} {excl : List String} {weights : EffectiveWeights}

/-- The scores by position. -/
def RoundRobin.score (rr : RoundRobin) (pos : Nat) : Int := rr.smooth.getD pos 0

theorem sum_smoothCandidates (health : Option ClusterHealthEntry) (excl : List String) (weights : EffectiveWeights)
    (eps : List WeightedEndpoint) :
    ∑ pos ∈ Finset.range eps.length, (smoothWeight health excl weights eps pos : Int)
      = ∑ pos ∈ smoothCandidates health excl weights eps, (smoothWeight health excl weights eps pos : Int) := by
  rw [smoothCandidates, Finset.sum_filter_of_ne]
  intro pos _ hne
  omega

variable {eps : List WeightedEndpoint} {pos : Nat}

theorem smoothWeight_pos :
    ∀ pos ∈ smoothCandidates health excl weights eps,
      0 < (smoothWeight health excl weights eps pos : Int) :=
  fun _ hpos => Int.natCast_pos.2 (mem_smoothCandidates.1 hpos)

variable {rr : RoundRobin}

theorem RoundRobin.selectSmooth_of_best {score : Int}
    (hbest : (smoothScan health excl weights rr.endpoints rr.smooth).best = some (pos, score)) :
    (rr.selectSmooth health excl weights).1 = rr.endpoints[pos]?.map WeightedEndpoint.address ∧
    (rr.selectSmooth health excl weights).2.endpoints = rr.endpoints ∧
    (rr.selectSmooth health excl weights).2.smooth
      = (smoothScan health excl weights rr.endpoints rr.smooth).current.modify pos fun score =>
          saturate (score - (smoothScan health excl weights rr.endpoints rr.smooth).total) := by
  simp only [selectSmooth, hbest, and_self]

theorem RoundRobin.selectSmooth_turn (hexact : Unsaturated health excl weights rr.endpoints rr.smooth)
    (hbalanced : Smooth.Balanced (smoothCandidates health excl weights rr.endpoints)
      (fun pos => (smoothWeight health excl weights rr.endpoints pos : Int)) rr.score)
    (hsome : (smoothCandidates health excl weights rr.endpoints).Nonempty) :
    ∃ pos, (rr.selectSmooth health excl weights).1 = rr.endpoints[pos]?.map WeightedEndpoint.address ∧
      (rr.selectSmooth health excl weights).2.endpoints = rr.endpoints ∧
      Smooth.Turn (smoothCandidates health excl weights rr.endpoints)
        (fun pos => (smoothWeight health excl weights rr.endpoints pos : Int)) rr.score pos
        (rr.selectSmooth health excl weights).2.score := by
  have h := scanned_smoothScan hexact rr.smooth_length
  have hlength := (length_smoothScan health excl weights rr.endpoints rr.smooth).trans rr.smooth_length
  cases hbest : (smoothScan health excl weights rr.endpoints rr.smooth).best with
  | none =>
    obtain ⟨pos, hpos⟩ := hsome
    have hpos := mem_smoothCandidates.1 hpos
    exact absurd (h.best_none hbest pos (lt_of_smoothWeight_pos hpos)) hpos.ne'
  | some best =>
    obtain ⟨pos, score⟩ := best
    obtain ⟨hlt, hpos, rfl, hgreatest⟩ := h.best_some pos score hbest
    obtain ⟨hanswer, hendpoints, hsmooth⟩ := selectSmooth_of_best hbest
    have hmem := mem_smoothCandidates.2 hpos
    have hbeats : ∀ j ∈ smoothCandidates health excl weights rr.endpoints,
        rr.score j + smoothWeight health excl weights rr.endpoints j
          ≤ rr.score pos + smoothWeight health excl weights rr.endpoints pos := fun j hj =>
      hgreatest j (lt_of_smoothWeight_pos (mem_smoothCandidates.1 hj)) (mem_smoothCandidates.1 hj)
    refine ⟨pos, hanswer, hendpoints, hmem, hbeats, fun j hj => ?_⟩
    have hj := lt_of_smoothWeight_pos (mem_smoothCandidates.1 hj)
    have htotal : 0 ≤ (smoothScan health excl weights rr.endpoints rr.smooth).total :=
      h.total ▸ Finset.sum_nonneg fun _ _ => Int.natCast_nonneg _
    have htotal_le := h.total.trans_le hexact.total_le
    rw [score, hsmooth, getD_modify (hlength ▸ hlt), h.current, if_pos hlt, h.current, if_pos hj]
    split
    case isTrue heq =>
      -- the winner's raised score is positive and at most the total is taken off it
      have hraised : 0 < rr.smooth.getD pos 0 + smoothWeight health excl weights rr.endpoints pos :=
        hbalanced.raised_pos smoothWeight_pos hmem hbeats
      have hupper := hexact.upper pos hpos
      have hmax : i64Max = 2 ^ 63 - 1 := rfl
      rw [saturate_eq (by omega) (by omega), heq, h.total, sum_smoothCandidates]
      rfl
    case isFalse => exact (sub_zero _).symm

section

variable (hlimits : WithinLimits rr.endpoints weights)
  (hbalanced : Smooth.Balanced (smoothCandidates health excl weights rr.endpoints) (fun pos => (smoothWeight health excl weights rr.endpoints pos : Int)) rr.score)
include hlimits hbalanced

/-- Balanced scores of a cluster within the limits are far from saturation. -/
theorem unsaturated_of_balanced : Unsaturated health excl weights rr.endpoints rr.smooth := by
  have hweight : ∀ pos, smoothWeight health excl weights rr.endpoints pos ≤ maxEndpointWeight * weightScale := by
    intro pos
    unfold smoothWeight
    cases hep : rr.endpoints[pos]? with
    | none => exact zero_le _
    | some ep =>
      rw [elim_some]
      split
      · exact hlimits.weight_le ep (mem_of_getElem? hep)
      · exact zero_le _
  have htotal : ∑ pos ∈ Finset.range rr.endpoints.length, (smoothWeight health excl weights rr.endpoints pos : Int)
      ≤ maxEndpoints * (maxEndpointWeight * weightScale) := by
    calc _ ≤ ∑ _pos ∈ Finset.range rr.endpoints.length, (maxEndpointWeight * weightScale : Int) :=
          Finset.sum_le_sum fun pos _ => by exact_mod_cast hweight pos
      _ = rr.endpoints.length * (maxEndpointWeight * weightScale : Int) := by
          rw [Finset.sum_const, Finset.card_range, nsmul_eq_mul]
      _ ≤ _ := by gcongr; exact hlimits.length_le
  have hcard : ((smoothCandidates health excl weights rr.endpoints).card : Int) ≤ maxEndpoints := by
    have hle := Finset.card_filter_le (Finset.range rr.endpoints.length)
      fun pos => 0 < smoothWeight health excl weights rr.endpoints pos
    rw [Finset.card_range] at hle
    exact_mod_cast hle.trans hlimits.length_le
  have hsum := sum_smoothCandidates health excl weights rr.endpoints
  refine ⟨fun pos => ?_, htotal.trans (by decide), fun pos hpos => ?_, fun pos hpos => ?_⟩
  · exact (Int.ofNat_le.2 (hweight pos)).trans (by decide)
  · have hfloor := hbalanced.floor pos (mem_smoothCandidates.2 hpos)
    rw [← hsum] at hfloor
    have : (maxEndpoints * (maxEndpointWeight * weightScale) : Int) ≤ 2 ^ 63 := by decide
    exact le_trans (by omega) hfloor.le
  · have hceiling := hbalanced.score_le (mem_smoothCandidates.2 hpos)
    rw [← hsum] at hceiling
    have hproduct : ((smoothCandidates health excl weights rr.endpoints).card : Int) *
        ∑ pos ∈ Finset.range rr.endpoints.length, (smoothWeight health excl weights rr.endpoints pos : Int)
        ≤ maxEndpoints * (maxEndpoints * (maxEndpointWeight * weightScale)) := by
      exact mul_le_mul hcard htotal (Finset.sum_nonneg fun _ _ => Int.natCast_nonneg _) (by decide)
    have hown : (smoothWeight health excl weights rr.endpoints pos : Int) ≤
        ∑ pos ∈ Finset.range rr.endpoints.length, (smoothWeight health excl weights rr.endpoints pos : Int) :=
      Finset.single_le_sum (f := fun pos => (smoothWeight health excl weights rr.endpoints pos : Int))
        (fun _ _ => Int.natCast_nonneg _) (Finset.mem_range.2 (lt_of_smoothWeight_pos hpos))
    have : (maxEndpoints * (maxEndpoints * (maxEndpointWeight * weightScale)) : Int) ≤ i64Max := by decide
    change rr.score pos + _ ≤ _
    omega

theorem RoundRobin.selectSmooth_turns {n : Nat}
    (hsome : (smoothCandidates health excl weights rr.endpoints).Nonempty) :
    ∃ picks, picks.length = n ∧
      answers (fun rr (_ : Unit) => rr.selectSmooth health excl weights) rr (replicate n ())
        = picks.map (fun pos => rr.endpoints[pos]?.map WeightedEndpoint.address) ∧
      Smooth.Turns (smoothCandidates health excl weights rr.endpoints)
        (fun pos => (smoothWeight health excl weights rr.endpoints pos : Int)) rr.score picks
        (stateAfter (fun rr (_ : Unit) => rr.selectSmooth health excl weights) rr (replicate n ())).score := by
  induction n generalizing rr with
  | zero => exact ⟨[], rfl, rfl, .none _⟩
  | succ n ih =>
    obtain ⟨pos, hanswer, hendpoints, hturn⟩ :=
      selectSmooth_turn (unsaturated_of_balanced hlimits hbalanced) hbalanced hsome
    have hnext := hturn.balanced smoothWeight_pos hbalanced
    rw [← hendpoints] at hlimits hsome hnext
    obtain ⟨picks, hlength, hpicks, hturns⟩ := ih hlimits hnext hsome
    rw [hendpoints] at hpicks hturns
    refine ⟨pos :: picks, by rw [length_cons, hlength], ?_, .turn hturn hturns⟩
    rw [replicate_succ, answers, hanswer, hpicks, map_cons]

end

/-- As addresses are distinct, an address is picked as often as its position. -/
theorem count_picked {picks : List Nat} {ep : WeightedEndpoint} (hnodup : (eps.map WeightedEndpoint.address).Nodup)
    (hep : eps[pos]? = some ep) (hmem : ∀ pick ∈ picks, pick ∈ smoothCandidates health excl weights eps) :
    (picks.map fun pos => eps[pos]?.map WeightedEndpoint.address).count (some ep.address) = picks.count pos := by
  rw [List.count, List.countP_map]
  refine List.countP_congr fun pick hpick => ?_
  have hlt := lt_of_smoothWeight_pos (mem_smoothCandidates.1 (hmem pick hpick))
  rw [Function.comp_apply, beq_iff_eq, beq_iff_eq, ← List.getElem?_map]
  constructor
  · intro haddress
    refine (List.getElem?_inj (by rwa [List.length_map]) hnodup).1 (haddress.trans ?_)
    rw [List.getElem?_map, hep, Option.map_some]
  · rintro rfl
    rw [List.getElem?_map, hep, Option.map_some]

/-- From scores at zero, the scores of the candidates sum to zero after every selection; after as many
selections as the weights sum to, each candidate was picked as often as it weighs and all scores are zero again. -/
theorem RoundRobin.smooth_fair (rr : RoundRobin) (health : Option ClusterHealthEntry) (excl : List String)
    (weights : EffectiveWeights) (hlimits : WithinLimits rr.endpoints weights)
    (hzero : ∀ pos ∈ smoothCandidates health excl weights rr.endpoints, rr.score pos = 0) :
    let select := fun (rr : RoundRobin) (_ : Unit) => rr.selectSmooth health excl weights
    let candidates := smoothCandidates health excl weights rr.endpoints
    let T := ∑ pos ∈ candidates, smoothWeight health excl weights rr.endpoints pos
    (∀ n, ∑ pos ∈ candidates, (stateAfter select rr (replicate n ())).score pos = 0) ∧
    ∀ pos ∈ candidates, (stateAfter select rr (replicate T ())).score pos = 0 ∧
      ∀ ep, rr.endpoints[pos]? = some ep →
        (answers select rr (replicate T ())).count (some ep.address)
          = endpointWeight ep.address ep.weight (some weights) := by
  intro select candidates T
  rcases candidates.eq_empty_or_nonempty with hempty | hsome
  · exact ⟨fun n => by rw [hempty, Finset.sum_empty], fun pos hpos => by rw [hempty] at hpos; simp at hpos⟩
  have hbalanced : Smooth.Balanced candidates
      (fun pos => (smoothWeight health excl weights rr.endpoints pos : Int)) rr.score :=
    { sum_eq := Finset.sum_eq_zero hzero
      floor := fun pos hpos => by
        rw [hzero pos hpos]
        exact neg_lt_zero.2 (Finset.sum_pos smoothWeight_pos hsome) }
  refine ⟨fun n => ?_, fun pos hpos => ?_⟩
  · obtain ⟨picks, -, -, hturns⟩ := selectSmooth_turns (n := n) hlimits hbalanced hsome
    exact (hturns.balanced smoothWeight_pos hbalanced).sum_eq
  · obtain ⟨picks, hlength, hpicks, hturns⟩ := selectSmooth_turns (n := T) hlimits hbalanced hsome
    obtain ⟨hscore, hcount⟩ := hturns.round smoothWeight_pos hzero (by rw [hlength]; exact cast_sum _ _) pos hpos
    refine ⟨hscore, fun ep hep => ?_⟩
    rw [hpicks, count_picked hlimits.nodup hep hturns.mem, Int.ofNat_inj.1 hcount, smoothWeight_eq hep, if_pos]
    exact candidate_of_smoothWeight_pos hep (mem_smoothCandidates.1 hpos)

/-- Half way through the ramp the second endpoint gets every third request. -/
theorem RoundRobin.smooth_fair_ramp :
    let rr := RoundRobin.new [{ address := "10.0.0.1:80", weight := 1 }, { address := "10.0.0.2:80", weight := 1 }]
    let weights : EffectiveWeights :=
      { byAddress := (AList.insert "10.0.0.1:80" 2 (AList.singleton "10.0.0.2:80" 1)), fallback := false, scaling := true }
    let select := fun (rr : RoundRobin) (_ : Unit) => rr.selectSmooth none [] weights
    (answers select rr (replicate 3 ())).count (some "10.0.0.2:80") = 1 := by
  intro rr weights
  have hlimits : WithinLimits rr.endpoints weights := ⟨by decide, by decide, by decide⟩
  have hround : ∑ pos ∈ smoothCandidates none [] weights rr.endpoints, smoothWeight none [] weights rr.endpoints pos = 3 := by
    decide
  have hcount := ((smooth_fair rr none [] weights hlimits (by decide)).2 1 (by decide)).2 _ rfl
  rw [hround] at hcount
  exact hcount

end

end Praxis.Balancing
