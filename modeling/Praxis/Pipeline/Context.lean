/-
The data of a running pipeline: the resolved filter tree, the exchange a filter reads and
writes, and the bookkeeping that only the executor writes. The context also carries a log of
what the executor did, which nothing reads back; the theorems about runs speak of it.
-/
import Praxis.Pipeline.Action
import Praxis.Pipeline.Condition

namespace Praxis.Pipeline

/-! ## The exchange -/

/-- A reference-counted string; `ptr` is its allocation. -/
structure ArcStr where
  ptr : Nat
  str : String
deriving Repr, DecidableEq

def ArcStr.ptrEq (a b : ArcStr) : Bool := a.ptr == b.ptr

/-- The selected upstream; only its address matters to the executor. -/
structure Upstream where
  address : ArcStr
deriving Repr, DecidableEq

/-- The part of `HttpFilterContext` that filters read and write; `world` stands for everything
else a filter may reach (its own state, stores, clocks). -/
structure Exchange (σ : Type) where
  request : Request
  responseHeader : Option Response
  cluster : Option String
  upstream : Option Upstream
  selected : SelectedUpstream
  filterResults : FilterResults
  retainedFilterResults : Option FilterResults
  traceContext : Bool
  currentFilterId : Option Nat
  world : σ

/-- The part of `HttpFilterContext` that the executor owns. `branchIterations` is a map whose
missing entries read 0. -/
structure Bookkeeping where
  branchIterations : String → Nat
  executedFilterIndices : List Bool
  executedBranchFilters : List Bool
  bodyDoneIndices : List Bool

/-! ## The filter tree -/

inductive BodyAccess where
  | none
  | readOnly
  | readWrite
deriving Repr, DecidableEq

inductive BodyMode where
  | stream
  | streamBuffer (maxBytes : Option Nat)
  | sizeLimit (maxBytes : Nat)
deriving Repr, DecidableEq

/-- An HTTP filter: its hooks, which may read all of the context and write the exchange, and
what it declares about itself to the build. -/
structure HttpFilter (σ : Type) where
  name : String
  onRequest : Bookkeeping → Exchange σ → Exchange σ × Except FilterError FilterAction
  onResponse : Bookkeeping → Exchange σ → Exchange σ × Except FilterError FilterAction
  selectsCluster : Bool
  selectedClusters : List String
  loadBalancerClusters : List String
  requestBodyAccess : BodyAccess
  requestBodyMode : BodyMode
  responseBodyAccess : BodyAccess
  responseBodyMode : BodyMode
  selectedUpstreamRequestBodyAccess : BodyAccess
  maySelectStreamingSubrequestResponse : Bool

/-- A filter that lets everything pass and declares nothing. -/
def HttpFilter.noop {σ : Type} (name : String) : HttpFilter σ :=
  { name := name
    onRequest := fun _ ex => (ex, .ok .proceed)
    onResponse := fun _ ex => (ex, .ok .proceed)
    selectsCluster := false
    selectedClusters := []
    loadBalancerClusters := []
    requestBodyAccess := .none
    requestBodyMode := .stream
    responseBodyAccess := .none
    responseBodyMode := .stream
    selectedUpstreamRequestBodyAccess := .none
    maySelectStreamingSubrequestResponse := false }

inductive AnyFilter (σ : Type) where
  | http (f : HttpFilter σ)
  | tcp (name : String)

namespace AnyFilter

variable {σ : Type}

def name : AnyFilter σ → String
  | .http f => f.name
  | .tcp n => n

def isHttp : AnyFilter σ → Bool
  | .http _ => true
  | .tcp _ => false

def selectsCluster : AnyFilter σ → Bool
  | .http f => f.selectsCluster
  | .tcp _ => false

def selectedClusters : AnyFilter σ → List String
  | .http f => f.selectedClusters
  | .tcp _ => []

def loadBalancerClusters : AnyFilter σ → List String
  | .http f => f.loadBalancerClusters
  | .tcp _ => []

end AnyFilter

/-- Where control goes after a branch's chain. -/
inductive RejoinTarget where
  | next
  | terminal
  | skipTo (target : Nat)
  | reEnter (target : Nat)
deriving Repr, DecidableEq

structure ResolvedBranchCondition where
  filterName : String
  key : String
  matcher : ResultMatch
deriving Repr, DecidableEq

/-- A `ResolvedBranch` without its chain. -/
structure BranchHead where
  name : String
  condition : Option ResolvedBranchCondition
  maxIterations : Option Nat
  rejoin : RejoinTarget
deriving Repr, DecidableEq

/-- A `PipelineFilter` without its branches. -/
structure FilterHead (σ : Type) where
  filterId : Nat
  name : Option String
  filter : AnyFilter σ
  conditions : List Condition
  responseConditions : List ResponseCondition
  failureMode : FailureMode
  isSecurity : Bool

mutual

/-- A filter of the pipeline with the branches attached to it. -/
inductive PipelineFilter (σ : Type) where
  | mk (head : FilterHead σ) (branches : List (ResolvedBranch σ))

/-- A branch with the chain of filters it runs. -/
inductive ResolvedBranch (σ : Type) where
  | mk (head : BranchHead) (filters : List (PipelineFilter σ))

end

section

variable {σ : Type}

def PipelineFilter.head : PipelineFilter σ → FilterHead σ
  | .mk h _ => h

def PipelineFilter.branches : PipelineFilter σ → List (ResolvedBranch σ)
  | .mk _ bs => bs

def ResolvedBranch.head : ResolvedBranch σ → BranchHead
  | .mk h _ => h

def ResolvedBranch.filters : ResolvedBranch σ → List (PipelineFilter σ)
  | .mk _ fs => fs

@[simp] theorem PipelineFilter.head_mk (h : FilterHead σ) (bs : List (ResolvedBranch σ)) :
    (PipelineFilter.mk h bs).head = h := rfl

@[simp] theorem PipelineFilter.branches_mk (h : FilterHead σ) (bs : List (ResolvedBranch σ)) :
    (PipelineFilter.mk h bs).branches = bs := rfl

@[simp] theorem ResolvedBranch.head_mk (h : BranchHead) (fs : List (PipelineFilter σ)) :
    (ResolvedBranch.mk h fs).head = h := rfl

@[simp] theorem ResolvedBranch.filters_mk (h : BranchHead) (fs : List (PipelineFilter σ)) :
    (ResolvedBranch.mk h fs).filters = fs := rfl

end

/-! ## The context -/

/-- What the executor did. `called` keeps the results before and after the hook and whether it
returned without propagating a fail-closed error; `decided` keeps the result entry a branch
condition consulted; `counted` keeps a branch's iteration counter before it is raised. -/
inductive Event where
  | evaluated (filter : Nat) (conditions : List Condition)
  | called (filter : Nat) (name : String) (before after : FilterResults) (returned : Bool)
  | decided (host : Nat) (branch : BranchHead) (consulted : Option FilterResultSet) (fires : Bool)
  | counted (host : Nat) (branch : BranchHead) (count : Nat)
  | considered (filter : Nat)
deriving Repr, DecidableEq

structure HttpFilterContext (σ : Type) where
  exchange : Exchange σ
  books : Bookkeeping
  log : List Event

/-- Why a phase stopped without an action: a fail-closed filter error, or the overflow check on
an iteration counter. -/
inductive Abort where
  | filter (e : FilterError)
  | overflow
deriving Repr, DecidableEq

namespace HttpFilterContext

variable {σ : Type}

/-- The context of a request that has not met the pipeline yet. -/
def fresh (request : Request) (world : σ) : HttpFilterContext σ :=
  { exchange :=
      { request := request, responseHeader := none, cluster := none, upstream := none, selected := .none,
        filterResults := .empty, retainedFilterResults := none, traceContext := false, currentFilterId := none,
        world := world }
    books :=
      { branchIterations := fun _ => 0, executedFilterIndices := [], executedBranchFilters := [],
        bodyDoneIndices := [] }
    log := [] }

def record (ctx : HttpFilterContext σ) (e : Event) : HttpFilterContext σ := { ctx with log := ctx.log ++ [e] }

@[simp] theorem record_log (ctx : HttpFilterContext σ) (e : Event) : (ctx.record e).log = ctx.log ++ [e] := rfl

end HttpFilterContext

end Praxis.Pipeline
