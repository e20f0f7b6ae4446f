/-
The selected-upstream ordering check and `ordering_errors`. The check is a forward reachability
pass over the pipeline's control flow that tracks one fact per point: can it be reached with no
load balancer having run? Each function gives the fact at its exits and the errors it flags on
the way; the fixpoint rounds of the source discard the errors.
-/
import Praxis.Lib.Stable
import Praxis.Pipeline.Checks

namespace Praxis.Pipeline

open List Bool Praxis.Lib

variable {σ κ : Type}

def isLoadBalancer (pf : FilterHead σ) : Bool := pf.filter.name == "load_balancer"

def flagIfGated (pf : FilterHead σ) (noLb : Bool) : List String :=
  if noLb && filterHasSelectedUpstreamCondition pf then
    [s!"filter '{pf.filter.name}' has a selected_upstream condition but no load_balancer is guaranteed to run before it; selected-upstream metadata is published only after a load balancer selects an upstream, so the condition would always fail closed. Add an unconditional load_balancer earlier in the chain."]
  else []

/-! ## Branch sub-chains -/

mutual

/-- `nested_chain_no_lb`: can the chain be left at its end with no load balancer having run? -/
def nestedChainNoLb : List (PipelineFilter σ) → Bool → Bool × List String
  | [], noLb => (noLb, [])
  | pf :: rest, noLb =>
    let here := nestedFilterNoLb pf noLb
    let after := nestedChainNoLb rest here.1
    (after.1, here.2 ++ after.2)
termination_by structural fs => fs

def nestedFilterNoLb : PipelineFilter σ → Bool → Bool × List String
  | .mk pf branches, noLb =>
    let exits := nestedBranchesExit branches (noLb && !isLoadBalancer pf) false
    ((noLb && !pf.conditions.isEmpty) || exits.1, flagIfGated pf noLb ++ exits.2)
termination_by structural filter => filter

/-- The loop of `nested_branches_exit` with its `carry` and `exit`; returning early is the
source's `alive = false`. -/
def nestedBranchesExit : List (ResolvedBranch σ) → Bool → Bool → Bool × List String
  | [], carry, exit => (exit || carry, [])
  | branch :: rest, carry, exit =>
    let chain := nestedBranchNoLb branch carry
    let unconditional := branch.head.condition.isNone
    match branch.head.rejoin with
    | .next =>
      let after := nestedBranchesExit rest (if unconditional then chain.1 else chain.1 || carry) exit
      (after.1, chain.2 ++ after.2)
    | .terminal =>
      if unconditional then (exit, chain.2)
      else
        let after := nestedBranchesExit rest carry exit
        (after.1, chain.2 ++ after.2)
    | .skipTo _ | .reEnter _ =>
      if unconditional then (exit || chain.1, chain.2)
      else
        let after := nestedBranchesExit rest carry (exit || chain.1)
        (after.1, chain.2 ++ after.2)
termination_by structural branches => branches

/-- `nested_chain_no_lb` on a branch's chain. -/
def nestedBranchNoLb : ResolvedBranch σ → Bool → Bool × List String
  | .mk _ fs, noLb => nestedChainNoLb fs noLb
termination_by structural branch => branch

end

/-! ## Top level -/

/-- `top_level_branch_edges`: jump edges, the fall-through state if there is a fall-through, and
the errors flagged. -/
def topLevelBranchEdges : List (ResolvedBranch σ) → Bool → List (Nat × Bool) × Option Bool × List String
  | [], carry => ([], some carry, [])
  | branch :: rest, carry =>
    let chain := nestedBranchNoLb branch carry
    let unconditional := branch.head.condition.isNone
    match branch.head.rejoin with
    | .next =>
      let after := topLevelBranchEdges rest (if unconditional then chain.1 else chain.1 || carry)
      (after.1, after.2.1, chain.2 ++ after.2.2)
    | .terminal =>
      if unconditional then ([], none, chain.2)
      else
        let after := topLevelBranchEdges rest carry
        (after.1, after.2.1, chain.2 ++ after.2.2)
    | .skipTo target =>
      let jump := if chain.1 then [(target, true)] else []
      if unconditional then (jump, none, chain.2)
      else
        let after := topLevelBranchEdges rest carry
        (jump ++ after.1, after.2.1, chain.2 ++ after.2.2)
    | .reEnter target =>
      let jump := if chain.1 then [(target, true)] else []
      let after := topLevelBranchEdges rest carry
      (jump ++ after.1, after.2.1, chain.2 ++ after.2.2)

/-- `top_level_filter_edges`: the edges out of a filter as `(target, no_lb)` pairs, and the
errors flagged. -/
def topLevelFilterEdges (index : Nat) (pf : PipelineFilter σ) (noLb : Bool) : List (Nat × Bool) × List String :=
  let skipped := if noLb && !pf.head.conditions.isEmpty then [(index + 1, true)] else []
  let exits := topLevelBranchEdges pf.branches (noLb && !isLoadBalancer pf.head)
  let through := match exits.2.1 with
    | some carry => [(index + 1, carry)]
    | none => []
  (skipped ++ exits.1 ++ through, flagIfGated pf.head noLb ++ exits.2.2)

variable (fs : List (PipelineFilter σ))

/-- The edges of all filters entered with the states `noLb`. -/
def topLevelEdges (noLb : List Bool) : List (Nat × Bool) :=
  ((enumerate fs).zip noLb).flatMap fun p => (topLevelFilterEdges p.1.1 p.1.2 p.2).1

/-- One round of the fixpoint of `compute_top_level_no_lb`. -/
def noLbRound (noLb : List Bool) : List Bool :=
  (range fs.length).map fun t => t == 0 || (topLevelEdges fs noLb).any fun e => e.1 == t && e.2

/-- `compute_top_level_no_lb`: for every index, can it be reached with no load balancer having
run? The states only rise, so one round more than there are filters is enough. -/
def computeTopLevelNoLb : List Bool :=
  untilStable (noLbRound fs) (fs.length + 1) ((range fs.length).map (· == 0))

def checkSelectedUpstreamConditionOrdering : List String :=
  ((enumerate fs).zip (computeTopLevelNoLb fs)).flatMap fun p => (topLevelFilterEdges p.1.1 p.1.2 p.2).2

/-! ## The fixpoint -/

mutual

/-- Once a load balancer has run, no point is reached without one. -/
theorem nestedChainNoLb_false : ∀ fs : List (PipelineFilter σ), (nestedChainNoLb fs false).1 = false
  | [] => by rw [nestedChainNoLb]
  | pf :: rest => by
    rw [nestedChainNoLb]
    dsimp only
    rw [nestedFilterNoLb_false pf]
    exact nestedChainNoLb_false rest

theorem nestedFilterNoLb_false : ∀ pf : PipelineFilter σ, (nestedFilterNoLb pf false).1 = false
  | .mk pf branches => by
    rw [nestedFilterNoLb]
    exact nestedBranchesExit_false branches

theorem nestedBranchesExit_false : ∀ branches : List (ResolvedBranch σ), (nestedBranchesExit branches false false).1 = false
  | [] => by rw [nestedBranchesExit]; rfl
  | b :: rest => by
    rw [nestedBranchesExit]
    dsimp only
    rw [nestedBranchNoLb_false b]
    split
    · rw [Bool.or_false, ite_self]
      exact nestedBranchesExit_false rest
    all_goals
      split
      · rfl
      · exact nestedBranchesExit_false rest

theorem nestedBranchNoLb_false : ∀ b : ResolvedBranch σ, (nestedBranchNoLb b false).1 = false
  | .mk _ fs => by
    rw [nestedBranchNoLb]
    exact nestedChainNoLb_false fs

end

theorem topLevelBranchEdges_false : ∀ branches : List (ResolvedBranch σ),
    (topLevelBranchEdges branches false).1 = [] ∧ (topLevelBranchEdges branches false).2.1 ≠ some true
  | [] => ⟨rfl, nofun⟩
  | b :: rest => by
    rw [topLevelBranchEdges]
    dsimp only
    rw [nestedBranchNoLb_false b]
    split
    · rw [Bool.or_false, ite_self]
      exact topLevelBranchEdges_false rest
    case h_4 => exact topLevelBranchEdges_false rest
    all_goals
      split
      · exact ⟨rfl, nofun⟩
      · exact topLevelBranchEdges_false rest

theorem topLevelFilterEdges_false (index : Nat) (pf : PipelineFilter σ) (t : Nat) :
    (t, true) ∉ (topLevelFilterEdges index pf false).1 := by
  obtain ⟨hjumps, hthrough⟩ := topLevelBranchEdges_false pf.branches
  rw [topLevelFilterEdges]
  dsimp only
  rw [Bool.false_and, Bool.false_and, hjumps]
  intro hm
  cases hcarry : (topLevelBranchEdges pf.branches false).2.1 with
  | none =>
    rw [hcarry] at hm
    cases hm
  | some carry =>
    rw [hcarry] at hm
    obtain ⟨-, rfl⟩ : t = index + 1 ∧ true = carry := by simpa using hm
    exact hthrough hcarry

variable {fs : List (PipelineFilter σ)} {noLb : List Bool} {t : Nat}

theorem mem_enumerate_zip {i : Nat} {pf : PipelineFilter σ} {b : Bool} :
    ((i, pf), b) ∈ (enumerate fs).zip noLb ↔ fs[i]? = some pf ∧ noLb[i]? = some b := by
  have hget : ∀ k : Nat, (enumerate fs)[k]? = (fs[k]?).map fun p => (k, p) := by
    intro k
    rw [enumerate, getElem?_map, getElem?_zipIdx, Option.map_map, Nat.zero_add]
    rfl
  rw [mem_iff_getElem?]
  constructor
  · rintro ⟨k, hk⟩
    obtain ⟨hpf, hb⟩ := getElem?_zip_eq_some.1 hk
    rw [hget] at hpf
    obtain ⟨p, hp, heq⟩ := Option.map_eq_some_iff.1 hpf
    cases heq
    exact ⟨hp, hb⟩
  · rintro ⟨hpf, hb⟩
    refine ⟨i, getElem?_zip_eq_some.2 ⟨?_, hb⟩⟩
    rw [hget, hpf]
    rfl

/-- The edges that carry the fact start where the fact holds. -/
theorem mem_topLevelEdges :
    (t, true) ∈ topLevelEdges fs noLb ↔ ∃ (i : Nat) (pf : PipelineFilter σ), fs[i]? = some pf ∧
      noLb[i]? = some true ∧ (t, true) ∈ (topLevelFilterEdges i pf true).1 := by
  rw [topLevelEdges, mem_flatMap]
  constructor
  · rintro ⟨⟨⟨i, pf⟩, b⟩, hm, hedge⟩
    obtain ⟨hpf, hb⟩ := mem_enumerate_zip.1 hm
    cases b with
    | false => exact absurd hedge (topLevelFilterEdges_false i pf t)
    | true => exact ⟨i, pf, hpf, hb, hedge⟩
  · rintro ⟨i, pf, hpf, hb, hedge⟩
    exact ⟨((i, pf), true), mem_enumerate_zip.2 ⟨hpf, hb⟩, hedge⟩

theorem any_edge_iff {edges : List (Nat × Bool)} : (edges.any fun e => e.1 == t && e.2) = true ↔ (t, true) ∈ edges := by
  rw [any_eq_true]
  constructor
  · rintro ⟨⟨u, b⟩, hm, he⟩
    obtain ⟨rfl, rfl⟩ : u = t ∧ b = true := by simpa using he
    exact hm
  · intro hm
    exact ⟨(t, true), hm, by simp⟩

theorem noLbRound_mono {as bs : List Bool} (h : FlagsLe as bs) : FlagsLe (noLbRound fs as) (noLbRound fs bs) := by
  refine flagsLe_map fun t _ ht => ?_
  rw [or_eq_true, any_edge_iff, mem_topLevelEdges] at ht ⊢
  rcases ht with ht | ⟨i, pf, hpf, hb, hedge⟩
  · exact .inl ht
  · exact .inr ⟨i, pf, hpf, h.getElem hb, hedge⟩

theorem computeTopLevelNoLb_fixed (fs : List (PipelineFilter σ)) :
    noLbRound fs (computeTopLevelNoLb fs) = computeTopLevelNoLb fs := by
  have hlen : ∀ l : List Bool, l.length = fs.length → l.count true ≤ fs.length :=
    fun l hl => hl ▸ count_le_length
  refine untilStable_fixed (R := FlagsLe) (fun _ _ h => noLbRound_mono h) (fun _ _ h hne => h.count_lt hne)
    (fun noLb => hlen _ (by simp [noLbRound])) _ ?_ (hlen _ (by simp)) (by omega)
  exact flagsLe_map fun t _ ht => by rw [ht]; rfl

/-- Where the fact holds at a filter it holds at the targets of its edges, and it holds at the
entry. -/
theorem computeTopLevelNoLb_closed (ht : t < fs.length)
    (h : t = 0 ∨ (t, true) ∈ topLevelEdges fs (computeTopLevelNoLb fs)) :
    (computeTopLevelNoLb fs)[t]? = some true := by
  rw [← computeTopLevelNoLb_fixed fs, noLbRound, getElem?_map, getElem?_range ht, Option.map_some]
  refine congrArg some ?_
  rw [or_eq_true, any_edge_iff, beq_iff_eq]
  exact h

theorem computeTopLevelNoLb_length : (computeTopLevelNoLb fs).length = fs.length := by
  rw [← computeTopLevelNoLb_fixed fs, noLbRound, length_map, length_range]

/-! ## All checks -/

/-- `ordering_errors` of a top-level pipeline; `allowsOverride` reads `allow_rewrite_override` of
the entry at a position. -/
def orderingErrors (allowsOverride : Nat → Bool) (allowOpenSecurity : Bool) (skip : SkipPipelineChecks)
    (fs : List (PipelineFilter σ)) : List String :=
  flatten
    [if skip.lbWithoutRouter then [] else checkLbWithoutClusterSelector fs,
     if skip.unreachableFilters then [] else checkUnconditionalStaticResponse fs,
     if skip.conditionalSecurity then [] else checkConditionalSecurity fs,
     checkOpenSecurityFilters allowOpenSecurity fs,
     if skip.duplicateRouters then [] else checkDuplicateRouters fs,
     if skip.duplicateLoadBalancers then [] else checkDuplicateLoadBalancers fs,
     if skip.conflictingClusterSelectors then [] else checkConflictingClusterSelectors fs,
     if skip.misalignedClusters then [] else checkMisalignedClusters fs,
     if skip.duplicateRewriteFilters then [] else checkDuplicateRewriteFilters allowsOverride fs,
     checkConditionHeaderNames fs,
     checkTraceContextUpstreamConditions fs,
     checkSkipToBypassesSecurity fs,
     checkTerminalRejoinBypassesSecurity fs,
     checkBranchBodyFilters fs,
     checkBranchSelectedUpstreamBodyFilters fs,
     checkSelectedUpstreamBodyMode fs,
     checkSelectedUpstreamConditionOrdering fs,
     checkSelectedUpstreamConditionPreRead fs,
     checkStreamingResponseMode fs]

end Praxis.Pipeline
