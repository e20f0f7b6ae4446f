/-
The ordering checks of a built pipeline, each a list of error texts, and `ordering_errors`,
which runs them in the source's order. The build without upstream binding is modelled, so the
binding checks are absent and no filter consumes a binding.
-/
import Praxis.Pipeline.Build

namespace Praxis.Pipeline

variable {σ κ : Type}

/-! ## Helpers -/

structure SkipPipelineChecks where
  conditionalSecurity : Bool
  conflictingClusterSelectors : Bool
  duplicateLoadBalancers : Bool
  duplicateRewriteFilters : Bool
  duplicateRouters : Bool
  lbWithoutRouter : Bool
  misalignedClusters : Bool
  unreachableFilters : Bool
deriving Repr, DecidableEq

/-- `SkipPipelineChecks::default()`: no check is skipped. -/
def SkipPipelineChecks.none : SkipPipelineChecks := ⟨false, false, false, false, false, false, false, false⟩

variable (fs : List (PipelineFilter σ))

def filterNames : List String := fs.map (·.head.filter.name)

/-- The filters with their positions. -/
def enumerate : List (Nat × PipelineFilter σ) := fs.zipIdx.map fun p => (p.2, p.1)

theorem mem_enumerate {fs : List (PipelineFilter σ)} {i : Nat} {pf : PipelineFilter σ} :
    (i, pf) ∈ enumerate fs ↔ fs[i]? = some pf := by
  rw [← List.mk_mem_zipIdx_iff_getElem?]
  constructor
  · intro h
    obtain ⟨p, hp, he⟩ := List.mem_map.1 h
    cases he
    exact hp
  · intro h
    exact List.mem_map_of_mem (f := fun p : PipelineFilter σ × Nat => (p.2, p.1)) h

def joinNames (names : List String) : String := ", ".intercalate names

mutual

/-- Errors that `report` finds in the branch chains below a filter, chain by chain in structural
order; `report` is given the name of the branch a filter stands in. -/
def PipelineFilter.branchErrors (report : String → FilterHead σ → List String) : PipelineFilter σ → List String
  | .mk _ branches => branchListErrors report branches

def branchListErrors (report : String → FilterHead σ → List String) : List (ResolvedBranch σ) → List String
  | [] => []
  | b :: rest => b.chainErrors report ++ branchListErrors report rest

def ResolvedBranch.chainErrors (report : String → FilterHead σ → List String) : ResolvedBranch σ → List String
  | .mk b fs => filterListErrors report b.name fs

def filterListErrors (report : String → FilterHead σ → List String) (branchName : String) :
    List (PipelineFilter σ) → List String
  | [] => []
  | pf :: rest =>
    report branchName pf.head ++ pf.branchErrors report ++ filterListErrors report branchName rest

end

/-! ## Conditions -/

def filterHasSelectedUpstreamCondition (pf : FilterHead σ) : Bool :=
  pf.conditions.any fun c => c.matcher.selectedUpstream.isSome

def conditionHeaderNames (m : ConditionMatch) : List String :=
  (m.headers.getD []).map (·.1) ++ m.headersPresent.getD []

def checkConditionHeaderNames : List String :=
  fs.flatMap fun pf => pf.head.conditions.flatMap fun c =>
    ((conditionHeaderNames c.matcher).filter fun name => (headerNameFromBytes name).isNone).map fun name =>
      s!"filter '{pf.head.filter.name}' has a condition with an invalid header name '{name}'"

def checkTraceContextUpstreamConditions : List String :=
  (fs.filter fun pf => pf.head.filter.name == "trace_context" && pf.head.conditions.any fun c =>
    c.matcher.boundUpstream.isSome || c.matcher.selectedUpstream.isSome).map fun _ =>
      "trace_context cannot use bound_upstream or selected_upstream conditions because trace propagation is decided before routing"

/-! ## Clusters -/

def checkLbWithoutClusterSelector : List String :=
  if (enumerate fs).any fun p => p.2.head.filter.name == "load_balancer" &&
      !(fs.take p.1).any (·.head.filter.selectsCluster) then
    ["load_balancer without a preceding router or cluster-selecting filter; requests will fail with 'no cluster selected'"]
  else []

/-- The selectors before a load balancer, routers counted once. -/
def competingSelectors : Bool → List (PipelineFilter σ) → List String
  | _, [] => []
  | sawRouter, pf :: rest =>
    if pf.head.filter.selectsCluster then
      if pf.head.filter.name == "router" then
        if sawRouter then competingSelectors true rest else "router" :: competingSelectors true rest
      else pf.head.filter.name :: competingSelectors sawRouter rest
    else competingSelectors sawRouter rest

def checkConflictingClusterSelectors : List String :=
  match (enumerate fs).find? fun p => p.2.head.filter.name == "load_balancer" &&
      decide (1 < (competingSelectors false (fs.take p.1)).length) with
  | none => []
  | some p =>
    let selectors := joinNames (competingSelectors false (fs.take p.1))
    [s!"pipeline contains multiple cluster-selecting filters before load_balancer ({selectors}); only the last one's cluster selection will take effect"]

def levelSelectedClusters : List String := (fs.flatMap (·.head.filter.selectedClusters)).eraseDups

def extractLbClusters : List String := ((subfilters fs).flatMap (·.head.filter.loadBalancerClusters)).eraseDups

mutual

/-- `reachable_lb_clusters`, the share of one filter: its own clusters, and those of its
unconditional branches when it is itself unconditional. -/
def PipelineFilter.reachableLbClusters : PipelineFilter σ → List String
  | .mk h branches =>
    h.filter.loadBalancerClusters ++ (if h.conditions.isEmpty then branchReachableLbClusters branches else [])

def branchReachableLbClusters : List (ResolvedBranch σ) → List String
  | [] => []
  | b :: rest => b.reachableLbClusters ++ branchReachableLbClusters rest

def ResolvedBranch.reachableLbClusters : ResolvedBranch σ → List String
  | .mk b fs => if b.condition.isNone then reachableLbClusters fs else []

def reachableLbClusters : List (PipelineFilter σ) → List String
  | [] => []
  | pf :: rest => pf.reachableLbClusters ++ reachableLbClusters rest

end

mutual

/-- `check_branch_cluster_demands`, the share of one filter. -/
def PipelineFilter.branchClusterDemands (inherited : List String) (anyLb : Bool) : PipelineFilter σ → List String
  | .mk _ branches => branchListClusterDemands inherited anyLb branches

def branchListClusterDemands (inherited : List String) (anyLb : Bool) : List (ResolvedBranch σ) → List String
  | [] => []
  | b :: rest => b.clusterDemands inherited anyLb ++ branchListClusterDemands inherited anyLb rest

def ResolvedBranch.clusterDemands (inherited : List String) (anyLb : Bool) : ResolvedBranch σ → List String
  | .mk b fs =>
    let available := inherited ++ reachableLbClusters fs
    let missing := (levelSelectedClusters fs).filter fun c => anyLb && !available.contains c
    (missing.map fun cluster =>
      s!"cluster-selecting filter in branch '{b.name}' references cluster '{cluster}' which is not defined in any load_balancer visible to that branch") ++
      checkBranchClusterDemands available anyLb fs

def checkBranchClusterDemands (inherited : List String) (anyLb : Bool) : List (PipelineFilter σ) → List String
  | [] => []
  | pf :: rest => pf.branchClusterDemands inherited anyLb ++ checkBranchClusterDemands inherited anyLb rest

end

def checkMisalignedClusters : List String :=
  let topLb := reachableLbClusters fs
  let anyLb := !(extractLbClusters fs).isEmpty
  let missing := (levelSelectedClusters fs).filter fun c => anyLb && !topLb.contains c
  (missing.map fun cluster =>
    s!"cluster-selecting filter references cluster '{cluster}' which is not defined in the load_balancer configuration") ++
    checkBranchClusterDemands topLb anyLb fs

/-! ## Reachability and duplicates -/

def checkUnconditionalStaticResponse : List String :=
  ((enumerate fs).filter fun p => p.2.head.filter.name == "static_response" &&
    decide (p.1 + 1 < fs.length) && p.2.head.conditions.isEmpty).map fun p =>
      let later := joinNames ((filterNames fs).drop (p.1 + 1))
      s!"unconditional static_response at position {p.1} makes subsequent filters unreachable: {later}"

def checkDuplicateRouters : List String :=
  let count := (filterNames fs).count "router"
  if 1 < count then
    [s!"multiple router filters in chain ({count}); only the last one's cluster selection will take effect"]
  else []

def checkDuplicateLoadBalancers : List String :=
  let count := (filterNames fs).count "load_balancer"
  if 1 < count then
    [s!"multiple load_balancer filters in chain ({count}); only the last one's upstream selection will take effect"]
  else []

/-- `check_duplicate_rewrite_filters`; `allowsOverride` reads `allow_rewrite_override` of the
entry at a position. -/
def checkDuplicateRewriteFilters (allowsOverride : Nat → Bool) (fs : List (PipelineFilter σ)) : List String :=
  let rewrites := (enumerate fs).filter fun p => ["path_rewrite", "url_rewrite"].contains p.2.head.filter.name
  match rewrites with
  | [] => []
  | first :: rest =>
    (rest.filter fun p => !allowsOverride p.1).map fun p =>
      s!"multiple path rewriting filters in pipeline: both '{first.2.head.filter.name}' and '{p.2.head.filter.name}' write to rewritten_path. Set `allow_rewrite_override: true` on the later filter to allow this (last writer wins)"

/-! ## Security filters -/

def reportConditionalSecurity (branchName : String) (pf : FilterHead σ) : List String :=
  if pf.isSecurity && !pf.conditions.isEmpty then
    [s!"security filter '{pf.filter.name}' in branch '{branchName}' has request conditions; it will be bypassed for non-matching requests"]
  else []

def checkConditionalSecurity : List String :=
  (((enumerate fs).filter fun p => p.2.head.isSecurity && !p.2.head.conditions.isEmpty).map fun p =>
    s!"security filter '{p.2.head.filter.name}' at position {p.1} has request conditions; it will be bypassed for non-matching requests") ++
    fs.flatMap fun pf => pf.branchErrors reportConditionalSecurity

def reportOpenSecurityFilter (allow : Bool) (location : String) (pf : FilterHead σ) : List String :=
  if pf.isSecurity && pf.failureMode == .open && !allow then
    [s!"security filter '{pf.filter.name}' at {location} has failure_mode: open; runtime errors will bypass security enforcement"]
  else []

def checkOpenSecurityFilters (allow : Bool) (fs : List (PipelineFilter σ)) : List String :=
  (enumerate fs).flatMap fun p =>
    reportOpenSecurityFilter allow s!"position {p.1}" p.2.head ++
      p.2.branchErrors fun branchName pf => reportOpenSecurityFilter allow s!"branch '{branchName}'" pf

def checkSkipToBypassesSecurity : List String :=
  (enumerate fs).flatMap fun p => p.2.branches.flatMap fun b =>
    match b.head.rejoin with
    | .skipTo target =>
      ((enumerate fs).filter fun q => decide (p.1 < q.1) && decide (q.1 < target) && q.2.head.isSecurity).map
        fun q => s!"branch '{b.head.name}' on filter at position {p.1} uses SkipTo rejoin that bypasses security filter '{q.2.head.filter.name}' at position {q.1}"
    | _ => []

def branchSelectsCluster : Bool := (subfilters fs).any (·.head.filter.selectsCluster)

/-- Whether a filter, or a filter inside its branches, selects a cluster. -/
def selectsClusterWithin (pf : PipelineFilter σ) : Bool :=
  pf.head.filter.selectsCluster || pf.branches.any fun b => branchSelectsCluster b.filters

/-- `check_terminal_rejoin_bypasses_security`: a terminal branch with a cluster selected by its
chain, or by any filter up to its host, must not stand before a security filter. -/
def checkTerminalRejoinBypassesSecurity : List String :=
  (enumerate fs).flatMap fun p =>
    let clusterSelectedBefore := (fs.take (p.1 + 1)).any selectsClusterWithin
    if p.2.branches.any fun b => b.head.rejoin == .terminal && (clusterSelectedBefore || branchSelectsCluster b.filters) then
      ((enumerate fs).filter fun q => decide (p.1 < q.1) && q.2.head.isSecurity).map fun q =>
        s!"filter at position {p.1} has a Terminal branch that forwards upstream (a cluster is selected in the sub-chain or earlier in the pipeline), bypassing security filter '{q.2.head.filter.name}' at position {q.1}; place the security filter before the routing branch"
    else []

/-! ## Bodies -/

def reportBranchBody (branchName : String) (pf : FilterHead σ) : List String :=
  match pf.filter with
  | .http f =>
    if f.requestBodyAccess != .none || f.responseBodyAccess != .none then
      [s!"filter '{f.name}' in branch '{branchName}' declares body access, but body hooks never execute for branch filters; move it to the main pipeline or gate it with filter conditions"]
    else []
  | .tcp _ => []

def checkBranchBodyFilters : List String := fs.flatMap fun pf => pf.branchErrors reportBranchBody

def reportBranchSelectedUpstreamBody (branchName : String) (pf : FilterHead σ) : List String :=
  match pf.filter with
  | .http f =>
    if f.selectedUpstreamRequestBodyAccess != .none then
      [s!"filter '{f.name}' in branch '{branchName}' declares selected-upstream request body access, but body hooks never execute for branch filters; move it to the main pipeline or gate it with filter conditions"]
    else []
  | .tcp _ => []

def checkBranchSelectedUpstreamBodyFilters : List String :=
  fs.flatMap fun pf => pf.branchErrors reportBranchSelectedUpstreamBody

def boundedStreamBuffer : BodyMode → Bool
  | .streamBuffer (some _) => true
  | _ => false

def checkSelectedUpstreamBodyMode : List String :=
  fs.flatMap fun pf =>
    match pf.head.filter with
    | .http f =>
      if f.selectedUpstreamRequestBodyAccess != .none && !boundedStreamBuffer f.requestBodyMode then
        [s!"filter '{f.name}' participates in the selected-upstream request body phase but its request_body_mode is not a bounded StreamBuffer; declare request_body_mode = StreamBuffer with a max_bytes limit"]
      else []
    | .tcp _ => []

def defaultMaxBufferBytes : Nat := 67108864

def mergeBodyMode (current : BodyMode) : BodyMode → BodyMode
  | .streamBuffer limit =>
    match current with
    | .streamBuffer existing => .streamBuffer (existing.bind fun x => limit.map (max x))
    | _ => .streamBuffer limit
  | _ => current

def bufferedBodyMode (f : HttpFilter σ) : BodyMode :=
  match f.requestBodyMode with
  | .streamBuffer (some limit) => .streamBuffer (some limit)
  | _ => .streamBuffer (some defaultMaxBufferBytes)

/-- The request body mode of `compute_body_capabilities`. -/
def requestBodyMode (fs : List (PipelineFilter σ)) : BodyMode :=
  fs.foldl (fun mode pf =>
    match pf.head.filter with
    | .http f =>
      let mode := if f.requestBodyAccess != .none then mergeBodyMode mode f.requestBodyMode else mode
      if f.selectedUpstreamRequestBodyAccess != .none then mergeBodyMode mode (bufferedBodyMode f) else mode
    | .tcp _ => mode) .stream

/-- The response body mode of `compute_body_capabilities`. -/
def responseBodyMode (fs : List (PipelineFilter σ)) : BodyMode :=
  fs.foldl (fun mode pf =>
    match pf.head.filter with
    | .http f => if f.responseBodyAccess != .none then mergeBodyMode mode f.responseBodyMode else mode
    | .tcp _ => mode) .stream

def isStreamBuffer : BodyMode → Bool
  | .streamBuffer _ => true
  | _ => false

def checkSelectedUpstreamConditionPreRead : List String :=
  if !isStreamBuffer (requestBodyMode fs) then []
  else fs.flatMap fun pf =>
    match pf.head.filter with
    | .http f =>
      if f.requestBodyAccess != .none && filterHasSelectedUpstreamCondition pf.head then
        [s!"filter '{f.name}' has a selected_upstream condition and a request-body hook, but the pipeline's request_body_mode is StreamBuffer: the request body is pre-read before the request phase, so the condition is evaluated before any load balancer selects an upstream and always fails closed. Remove the request-body access, the selected_upstream condition, or the StreamBuffer body mode."]
      else []
    | .tcp _ => []

/-- `filters_may_select_streaming_subrequest_response`. -/
def maySelectStreamingSubrequestResponse (fs : List (PipelineFilter σ)) : Bool :=
  (subfilters fs).any fun pf =>
    match pf.head.filter with
    | .http f => f.maySelectStreamingSubrequestResponse
    | .tcp _ => false

def checkStreamingResponseMode : List String :=
  if maySelectStreamingSubrequestResponse fs && isStreamBuffer (responseBodyMode fs) then
    ["pipeline contains a filter that may select a streaming sub-request response, but its response body mode is StreamBuffer"]
  else []

end Praxis.Pipeline
