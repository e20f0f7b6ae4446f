/-
The load_balancer filter. `on_request` picks an endpoint of the routed cluster, which takes a slot with
the cluster's strategy and a lease of its retry state; `on_response` gives both back. How a strategy
chooses is left open: it is any function of what it can see.
-/
import Praxis.Lib.Ledger
import Praxis.Pipeline.Context
import Praxis.Retry.Policy

namespace Praxis.LoadBalancer

open Praxis.Lib (Entry)
open Praxis.Pipeline (ArcStr Upstream Exchange Bookkeeping HttpFilter FilterError FilterAction Request SelectedUpstream)
open Praxis.Retry (RetryPolicy)

/-! ## What a request can see -/

/-- What a request takes of a cluster: a slot for an endpoint with an instance of a strategy
(`Strategy::select` and `release`), or a lease of a retry state (`ClusterRetryState::enter` and `leave`). -/
inductive Load where
  | slot (strategy : Nat) (address : String)
  | lease (state : Nat)
deriving Repr, DecidableEq

/-- `Strategy`: an instance with some way to extract a hash key, to choose and to release. `τ` is everything
outside the request: counters, health, weights. -/
structure Strategy (τ : Type) where
  id : Nat
  hashKey : Request → Option String
  select : Option String → τ → List ArcStr → Option ArcStr × τ
  release : τ → String → τ

/-- `EndpointReselector`, as far as choosing and releasing need it. -/
structure EndpointReselector (τ : Type) where
  strategy : Strategy τ
  hashKey : Option String

/-- The part of `HttpFilterContext` that only load balancers write, with the ledger of what was taken and
given back, which nothing reads. -/
structure Accounts (τ : Type) where
  /-- `filter_metadata["lb.selected"]` -/
  lbSelected : Bool
  retryPolicy : Option RetryPolicy
  clusterRetryState : Option Nat
  clusterRetryStateReleased : Bool
  endpointReselector : Option (EndpointReselector τ)
  ledger : List (Entry Load)

/-- The accounts of a request that has not met a load balancer. -/
def Accounts.blank (τ : Type) : Accounts τ where
  lbSelected := false
  retryPolicy := none
  clusterRetryState := none
  clusterRetryStateReleased := false
  endpointReselector := none
  ledger := []

def maxMetadataEntries : Nat := 128

/-- What load balancers use of `HttpFilterContext` besides the exchange. -/
structure World (τ : Type) where
  boundCluster : Option String
  pinnedEndpointAddress : Option ArcStr
  routeRetryPolicy : Option RetryPolicy
  selectedEndpointIndex : Option Nat
  attemptedEndpoints : List ArcStr
  /-- The entries of `filter_metadata` besides `lb.selected`. -/
  otherMetadata : Nat
  accounts : Accounts τ
  outside : τ

namespace World

variable {τ : Type}

/-- An entry of the ledger. -/
def enter (w : World τ) (e : Entry Load) : World τ :=
  { w with accounts := { w.accounts with ledger := w.accounts.ledger ++ [e] } }

/-- Whether `lb.selected` is there after `set_metadata`, which drops a new key when there is no room. -/
def marked (w : World τ) : Bool := w.accounts.lbSelected || w.otherMetadata < maxMetadataEntries

def release (w : World τ) (strategy : Strategy τ) (address : String) : World τ :=
  { w.enter (.given (.slot strategy.id address)) with outside := strategy.release w.outside address }

end World

/-! ## Clusters -/

/-- `ClusterEntry`; `retryState` is the instance. -/
structure ClusterEntry (τ : Type) where
  strategy : Strategy τ
  applicationProtocol : Option String
  applicationProvider : Option String
  retryPolicy : RetryPolicy
  retryState : Nat

def mergeOverride (policy route : RetryPolicy) : RetryPolicy where
  configured := policy.configured || route.configured
  maxRetries := route.maxRetries.or policy.maxRetries
  retriableStatusCodes := if route.retriableStatusCodes.isEmpty then policy.retriableStatusCodes else route.retriableStatusCodes
  retriableConditions := if route.retriableConditions.isEmpty then policy.retriableConditions else route.retriableConditions
  requestTimeoutMs := route.requestTimeoutMs.or policy.requestTimeoutMs
  backoff := route.backoff.or policy.backoff
  retryBodyLimitBytes := route.retryBodyLimitBytes.or policy.retryBodyLimitBytes
  allowNonIdempotent := route.allowNonIdempotent.or policy.allowNonIdempotent

inductive ClusterSource where
  | router
  | boundUpstream
deriving Repr, DecidableEq

/-- `usize::MAX`, the index of an endpoint without a health state. -/
def unknownIndex : Nat := 2 ^ 64 - 1

/-- `LoadBalancerFilter`. `health` is the registry: for a cluster with a health state, the index of an
endpoint in it. -/
structure LoadBalancerFilter (τ : Type) where
  clusters : List (String × ClusterEntry τ)
  clusterSource : ClusterSource
  health : τ → String → Option (String → Option Nat)

variable {τ : Type}

/-- `publish_selected_application` -/
def ClusterEntry.publish (entry : ClusterEntry τ) (ex : Exchange (World τ)) : Exchange (World τ) :=
  { ex with selected :=
    { applicationProtocol := entry.applicationProtocol, applicationProvider := entry.applicationProvider } }

/-- What `on_request` does with the endpoint the strategy chose. -/
def ClusterEntry.settle (entry : ClusterEntry τ) (index : Option Nat) (address : ArcStr) (ex : Exchange (World τ)) :
    Exchange (World τ) :=
  let policy := ex.world.routeRetryPolicy.elim entry.retryPolicy (mergeOverride entry.retryPolicy)
  entry.publish { ex with
    upstream := some { address }
    world := { ex.world with
      selectedEndpointIndex := index.or (some unknownIndex)
      attemptedEndpoints := ex.world.attemptedEndpoints ++ [address]
      accounts :=
        { lbSelected := ex.world.marked
          retryPolicy := some policy
          clusterRetryState := some entry.retryState
          clusterRetryStateReleased := ex.world.accounts.clusterRetryStateReleased
          endpointReselector := some { strategy := entry.strategy, hashKey := entry.strategy.hashKey ex.request }
          ledger := ex.world.accounts.ledger ++
            [.taken (.slot entry.strategy.id address.str), .taken (.lease entry.retryState)] } } }

namespace LoadBalancerFilter

variable (lb : LoadBalancerFilter τ)

/-- `clusters.get` -/
def get (cluster : String) : Option (ClusterEntry τ) := lb.clusters.lookup cluster

def resolveFromRouter (ex : Exchange (World τ)) : Except FilterError (String × ClusterEntry τ) :=
  match ex.cluster with
  | none => .error ⟨"load_balancer filter: no cluster set in context (is a router filter configured before this?)"⟩
  | some cluster =>
    match lb.get cluster with
    | none => .error ⟨"load_balancer filter: unknown cluster '" ++ cluster ++ "'"⟩
    | some entry => .ok (cluster, entry)

def resolveFromBoundUpstream (ex : Exchange (World τ)) : Except FilterError (String × ClusterEntry τ) :=
  match ex.world.boundCluster with
  | none =>
    .error ⟨"load_balancer filter: cluster_source is bound_upstream but no upstream is bound " ++
      "(is a binding router configured before this?)"⟩
  | some bound =>
    match lb.get bound with
    | none => .error ⟨"load_balancer filter: bound cluster '" ++ bound ++ "' not declared in this load_balancer"⟩
    | some entry =>
      match ex.cluster.filter (· != bound) with
      | some selected =>
        .error ⟨"load_balancer filter: exchange cluster '" ++ selected ++ "' conflicts with bound cluster '" ++ bound ++ "'"⟩
      | none => .ok (bound, entry)

/-- `resolve_cluster`; the cluster it resolves is then the cluster of the exchange. -/
def resolveCluster (ex : Exchange (World τ)) : Except FilterError (String × ClusterEntry τ) :=
  match lb.clusterSource with
  | .router => lb.resolveFromRouter ex
  | .boundUpstream => lb.resolveFromBoundUpstream ex

/-- The part of `on_request` that asks the strategy. -/
def selectEndpoint (cluster : String) (entry : ClusterEntry τ) (ex : Exchange (World τ)) :
    Exchange (World τ) × Except FilterError FilterAction :=
  match entry.strategy.select (entry.strategy.hashKey ex.request) ex.world.outside [] with
  | (none, outside) =>
    ({ ex with world := { ex.world with outside } },
      .error ⟨"load_balancer filter: cluster '" ++ cluster ++ "' has no available endpoints"⟩)
  | (some address, outside) =>
    let index := (lb.health ex.world.outside cluster).bind fun index => index address.str
    (entry.settle index address { ex with world := { ex.world with outside } }, .ok .proceed)

def onRequest (_ : Bookkeeping) (ex : Exchange (World τ)) : Exchange (World τ) × Except FilterError FilterAction :=
  if ex.upstream.isSome then
    -- An upstream that is there already serves the routed cluster, whoever set it.
    match ex.cluster.bind lb.get with
    | some entry => (entry.publish ex, .ok .proceed)
    | none => (ex, .ok .proceed)
  else
    match lb.resolveCluster ex with
    | .error e => (ex, .error e)
    | .ok (cluster, entry) =>
      let health := lb.health ex.world.outside cluster
      let pinned := ex.world.pinnedEndpointAddress
      let ex := { ex with cluster := some cluster, world := { ex.world with pinnedEndpointAddress := none } }
      match pinned.filter fun address => health.all fun index => (index address.str).isSome with
      | some address =>
        -- Served without a policy, a budget or a reselector; the strategy does not hear of it.
        (entry.publish { ex with
          upstream := some { address }
          world := { ex.world with selectedEndpointIndex := health.bind fun index => index address.str } }, .ok .proceed)
      | none => lb.selectEndpoint cluster entry ex

def onResponse (_ : Bookkeeping) (ex : Exchange (World τ)) : Exchange (World τ) × Except FilterError FilterAction :=
  if !ex.world.accounts.lbSelected then (ex, .ok .proceed)
  else
    let released :=
      match ex.cluster.bind lb.get, ex.upstream with
      | some entry, some upstream => ex.world.release entry.strategy upstream.address.str
      | _, _ => ex.world
    match released.accounts.clusterRetryState with
    | none => ({ ex with world := released }, .ok .proceed)
    | some state =>
      let left := released.enter (.given (.lease state))
      ({ ex with world := { left with accounts := { left.accounts with clusterRetryStateReleased := true } } }, .ok .proceed)

def toHttpFilter : HttpFilter (World τ) :=
  { (HttpFilter.noop "load_balancer" : HttpFilter (World τ)) with
    onRequest := lb.onRequest
    onResponse := lb.onResponse
    loadBalancerClusters := lb.clusters.map Prod.fst }

end LoadBalancerFilter

end Praxis.LoadBalancer
