/-
The life of a request around its load balancers: the request phase, the attempts to reach an upstream
with their retries, the response phase, and the cleanup that ends every request. The filters run in the
pipeline's executor; what comes from outside (how an attempt ends, what the upstream answers, when the
client goes away) is an event.
-/
import Praxis.LoadBalancer.Filter
import Praxis.Pipeline.Http

namespace Praxis.LoadBalancer

open Praxis.Lib (Entry)
open Praxis.Pipeline (ArcStr Upstream Exchange FilterAction FilterError HttpFilterContext PipelineFilter Request Response
  RequestEnd executeHttpRequest executeHttpResponse)
open Praxis.Retry (RetryCtx RetryOutcome RetryPolicy shouldRetry)

variable {τ : Type}

/-! ## The context between the phases -/

inductive Phase where
  /-- Before the request phase. -/
  | received
  /-- About to make an attempt. -/
  | attempting
  /-- An attempt is under way. -/
  | dialed
  /-- The response phase ran for the final response. -/
  | answered
  /-- No attempt will follow. -/
  | stopped
  /-- After the cleanup. -/
  | complete
deriving Repr, DecidableEq

/-- `PingoraRequestCtx`, as far as the accounts depend on it. What the filters share of it is in `ctx`. -/
structure Flight (τ : Type) where
  phase : Phase
  ctx : HttpFilterContext (World τ)
  upstreamForRetry : Option Upstream
  reselectOnRetry : Bool
  retries : Nat
  responsePhaseDone : Bool

namespace Flight

/-- The context of a request whose head has been read. -/
def start (request : Request) (boundCluster : Option String) (otherMetadata : Nat) (outside : τ) : Flight τ where
  phase := .received
  ctx := HttpFilterContext.fresh request
    { boundCluster, pinnedEndpointAddress := none, routeRetryPolicy := none, selectedEndpointIndex := none,
      attemptedEndpoints := [], otherMetadata, accounts := .blank τ, outside }
  upstreamForRetry := none
  reselectOnRetry := false
  retries := 0
  responsePhaseDone := false

def world (s : Flight τ) : World τ := s.ctx.exchange.world

def accounts (s : Flight τ) : Accounts τ := s.world.accounts

/-- The upstream a filter gets to see: the one selected, or a copy of the one in use. -/
def upstream (s : Flight τ) : Option Upstream := s.ctx.exchange.upstream.or s.upstreamForRetry

variable (filters : List (PipelineFilter (World τ))) (s : Flight τ)

def setWorld (w : World τ) : Flight τ := { s with ctx := { s.ctx with exchange := { s.ctx.exchange with world := w } } }

/-- `filter_context!` -/
def filterContext (resp : Option Response) : HttpFilterContext (World τ) :=
  { s.ctx with
    exchange := { s.ctx.exchange with
      responseHeader := resp
      upstream := s.upstream
      world := { s.world with pinnedEndpointAddress := none } }
    books := { s.ctx.books with branchIterations := fun _ => 0 } }

/-- What every phase writes back: the cluster, the marks, the metadata and the extensions. The retry fields
stay as they were, and `upstream` and `attempted` are what the caller writes back of the two it took. -/
def writeBack (left : HttpFilterContext (World τ)) (upstream : Option Upstream) (attempted : List ArcStr) : Flight τ :=
  { s with
    ctx := { left with
      exchange := { left.exchange with
        upstream
        world := { left.exchange.world with
          routeRetryPolicy := s.world.routeRetryPolicy
          selectedEndpointIndex := s.world.selectedEndpointIndex
          attemptedEndpoints := attempted
          accounts := { left.exchange.world.accounts with
            retryPolicy := s.accounts.retryPolicy
            clusterRetryState := s.accounts.clusterRetryState
            clusterRetryStateReleased := s.accounts.clusterRetryStateReleased
            endpointReselector := s.accounts.endpointReselector } } } } }

/-! ## Phases -/

/-- `run_response_filters`, which also writes back that the lease was given up, and not the upstream. -/
def runResponseFilters (resp : Response) : Flight τ :=
  let left := (executeHttpResponse filters (s.filterContext (some resp))).1
  let s := s.writeBack left none left.exchange.world.attemptedEndpoints
  s.setWorld { s.world with
    accounts := { s.accounts with clusterRetryStateReleased := left.exchange.world.accounts.clusterRetryStateReleased } }

def prepareTerminalResponse (resp : Response) : Flight τ :=
  let left := (executeHttpResponse filters (s.filterContext (some resp))).1
  { s.writeBack left left.exchange.upstream [] with responsePhaseDone := true }

def loggingCleanup : Flight τ :=
  if s.responsePhaseDone then s
  else
    let left := (executeHttpResponse filters (s.filterContext none)).1
    s.writeBack left left.exchange.upstream []

def releaseRetryState : Flight τ :=
  match s.accounts.clusterRetryStateReleased, s.accounts.clusterRetryState with
  | false, some state =>
    let w := s.world.enter (.given (.lease state))
    s.setWorld { w with accounts := { w.accounts with clusterRetryState := none, clusterRetryStateReleased := true } }
  | _, _ => s

/-- `logging`, as far as the accounts are concerned. -/
def logging : Flight τ := { s.releaseRetryState.loggingCleanup filters with phase := .complete }

/-- A body phase: the context it runs with is written back, with the upstream in use as the selected one. -/
def runBodyPhase : Flight τ := s.writeBack (s.filterContext none) s.upstream s.world.attemptedEndpoints

/-- What `run_pipeline` writes back of a request that is not forwarded. -/
def writeBackStopped (left : HttpFilterContext (World τ)) : Flight τ :=
  { s with
    phase := .stopped
    ctx := { left with
      exchange := { left.exchange with
        world := { left.exchange.world with
          routeRetryPolicy := s.world.routeRetryPolicy
          attemptedEndpoints := []
          accounts := { left.exchange.world.accounts with retryPolicy := s.accounts.retryPolicy } } } } }

/-- What follows the request phase; `refused` when the selected-upstream body phase turns the request down. -/
def afterRequest (refused : Bool) : RequestEnd (World τ) → Flight τ
  | (left, .ok .proceed) | (left, .ok .release) | (left, .ok .bodyDone) =>
    if refused && left.exchange.upstream.isSome then s.writeBackStopped left
    else { s with ctx := left, phase := .attempting }
  | (left, .ok (.reject _)) | (left, .error _) => s.writeBackStopped left
  | (left, .ok (.terminalResponse t)) =>
    (s.writeBackStopped left).prepareTerminalResponse filters { status := t.status, headers := t.headers }
  | (left, .ok (.streamingTerminalResponse t)) =>
    (s.writeBackStopped left).prepareTerminalResponse filters { status := t.status, headers := t.headers }

/-- `run_pipeline` and what `execute` does with its result. -/
def runPipeline (fuel : Nat) (refused : Bool) : Option (Flight τ) :=
  (executeHttpRequest filters fuel (s.filterContext none)).map (s.afterRequest filters refused)

/-! ## Attempts and retries -/

def clearForReselection : Flight τ :=
  match s.upstreamForRetry, s.accounts.endpointReselector with
  | some upstream, some reselector =>
    { s.setWorld (s.world.release reselector.strategy upstream.address.str) with upstreamForRetry := none }
  | _, _ => { s with upstreamForRetry := none }

/-- `attempted_endpoints` with the address, once. -/
def noteAttempted (address : ArcStr) : Flight τ :=
  if s.world.attemptedEndpoints.any fun e => e.str == address.str then s
  else s.setWorld { s.world with attemptedEndpoints := s.world.attemptedEndpoints ++ [address] }

/-- The upstream of a failed attempt counts as attempted. -/
def noteFailed : Flight τ := s.upstreamForRetry.elim s fun upstream => s.noteAttempted upstream.address

/-- What `connect_failure_retry` and `response_status_retry` have in common. `seen` is what else `should_retry`
looks at, and `admits` what the budget of the retry state says. -/
def retryAfter (out : RetryOutcome) (seen : RetryCtx) (admits : Bool) (jitter : Nat) : Bool × Flight τ :=
  let policy := s.accounts.retryPolicy.getD .legacyDefault
  match shouldRetry { seen with retries := s.retries } policy out (s.accounts.clusterRetryState.map fun _ => admits)
    jitter with
  | .doNotRetry => (false, s)
  | .retry _ =>
    let s := { s with retries := s.retries + 1, reselectOnRetry := policy.configured }.noteFailed
    (true, if policy.configured then s.clearForReselection else s)

def connectFailureRetry (out : RetryOutcome) (seen : RetryCtx) (admits : Bool) (jitter : Nat) :
    Bool × Flight τ := s.retryAfter out seen admits jitter

def responseStatusRetry (status : Nat) (seen : RetryCtx) (admits : Bool) (jitter : Nat) : Bool × Flight τ :=
  s.retryAfter (.statusCode status) seen admits jitter

/-- The reselection of `prepare_attempt`; `index` is the endpoint's index in the health registry. -/
def reselect (index : ArcStr → Option Nat) : Flight τ :=
  if !s.reselectOnRetry then s
  else
    let s := { s with reselectOnRetry := false }
    match s.accounts.endpointReselector with
    | none => s
    | some reselector =>
      match reselector.strategy.select reselector.hashKey s.world.outside s.world.attemptedEndpoints with
      | (none, outside) => s.setWorld { s.world with outside }
      | (some address, outside) =>
        let s := s.setWorld { s.world.enter (.taken (.slot reselector.strategy.id address.str)) with outside }
        let s := s.upstreamForRetry.elim s fun previous =>
          s.setWorld (s.world.release reselector.strategy previous.address.str)
        let s := s.noteAttempted address
        { s.setWorld { s.world with selectedEndpointIndex := some ((index address).getD unknownIndex) } with
          upstreamForRetry := some { address } }

/-- `prepare_attempt`, after which there is something to dial or the request has failed. -/
def prepareAttempt (index : ArcStr → Option Nat) : Flight τ :=
  let s := s.reselect index
  let s :=
    if s.upstreamForRetry.isNone then
      { s with
        upstreamForRetry := s.ctx.exchange.upstream
        ctx := { s.ctx with exchange := { s.ctx.exchange with upstream := none } } }
    else s
  { s with phase := if s.upstreamForRetry.isSome then .dialed else .stopped }

/-- `response_filter::execute`: a status that is retried, or the response phase. An informational response
is not the end of the attempt. -/
def respond (resp : Response) (final : Bool) (seen : RetryCtx) (admits : Bool) (jitter : Nat) : Flight τ :=
  match s.responseStatusRetry resp.status seen admits jitter with
  | (true, s) => { s with phase := .attempting }
  | (false, s) =>
    let s := { s with responsePhaseDone := true }.runResponseFilters filters resp
    { s with phase := if final then .answered else .dialed }

/-! ## The machine -/

inductive Event where
  | request (fuel : Nat) (refused : Bool)
  | attempt (index : ArcStr → Option Nat)
  /-- A chunk passes the body filters. -/
  | body
  /-- The attempt fails. -/
  | fail (out : RetryOutcome) (seen : RetryCtx) (admits : Bool) (jitter : Nat)
  /-- A stale pooled connection, which is tried again outside the policy. -/
  | replay
  | respond (resp : Response) (final : Bool) (seen : RetryCtx) (admits : Bool) (jitter : Nat)
  /-- The request is over, for whatever reason. -/
  | finish

/-- One event in the life of the request. -/
def step (event : Event) : Option (Flight τ) :=
  match s.phase, event with
  | .received, .request fuel refused => s.runPipeline filters fuel refused
  | .attempting, .attempt index => some (s.prepareAttempt index)
  | .dialed, .body | .answered, .body => some s.runBodyPhase
  | .dialed, .fail out seen admits jitter =>
    match s.connectFailureRetry out seen admits jitter with
    | (true, s) => some { s with phase := .attempting }
    | (false, s) => some { s with phase := .stopped }
  | .dialed, .replay => some { s with phase := .attempting }
  | .dialed, .respond resp final seen admits jitter => some (s.respond filters resp final seen admits jitter)
  | .attempting, .finish | .dialed, .finish | .answered, .finish | .stopped, .finish => some (s.logging filters)
  | _, _ => none

end Flight

end Praxis.LoadBalancer
