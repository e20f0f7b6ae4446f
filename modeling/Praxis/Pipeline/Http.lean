/-
The request and response phases of the pipeline. The request phase walks the filters by index,
forwards and back again where a branch says so; the response phase walks the same tree once in
reverse, driven by the marks the request phase left.
-/
import Praxis.Lib.Loop
import Praxis.Pipeline.Evaluate

namespace Praxis.Pipeline

open Praxis.Lib

variable {σ : Type}

/-! ## Request phase -/

/-- `HeaderFilterOutcome`; `proceed` is the source's `Continue`. -/
inductive HeaderFilterOutcome where
  | proceed
  | rejected (r : Rejection)
  | terminalResponse (t : TerminalResponse)
  | streamingTerminalResponse (t : StreamingTerminalResponse)
deriving Repr, DecidableEq

/-- How `run_request_filter` reads the result of `on_request`. -/
def requestOutcome (result : Except FilterError FilterAction) (mode : FailureMode) : Except FilterError HeaderFilterOutcome :=
  match result with
  | .ok .proceed | .ok .release | .ok .bodyDone => .ok .proceed
  | .ok (.reject r) => .ok (.rejected r)
  | .ok (.terminalResponse t) => .ok (.terminalResponse t)
  | .ok (.streamingTerminalResponse t) => .ok (.streamingTerminalResponse t)
  | .error e => (checkFailureMode e mode).map fun _ => .proceed

/-- `enables_trace_propagation`: does a top-level `trace_context` filter match the request head?
Evaluated at the start of the request phase, with no selection in scope. -/
def enablesTracePropagation : List (PipelineFilter σ) → HttpFilterContext σ → HttpFilterContext σ × Bool
  | [], ctx => (ctx, false)
  | pf :: rest, ctx =>
    if pf.head.filter.name == "trace_context" then
      let ctx := ctx.record (.evaluated pf.head.filterId pf.head.conditions)
      if shouldExecute pf.head.conditions ctx.exchange.request then (ctx, true)
      else enablesTracePropagation rest ctx
    else enablesTracePropagation rest ctx

/-- `branch_selected_upstream`: did the branches set `ctx.upstream` themselves? Addresses are
compared by allocation. -/
def branchSelectedUpstream (before : Option ArcStr) (ctx : HttpFilterContext σ) : Bool :=
  ctx.exchange.upstream.any fun upstream => before.all fun prior => !prior.ptrEq upstream.address

/-- The state of the request loop: the index, the pre-read results held aside, the context. -/
structure RequestState (σ : Type) where
  idx : Nat
  preRead : FilterResults
  ctx : HttpFilterContext σ

/-- How the request phase ends. -/
abbrev RequestEnd (σ : Type) := HttpFilterContext σ × Except Abort FilterAction

def markTopLevel (ctx : HttpFilterContext σ) (idx : Nat) : HttpFilterContext σ :=
  { ctx with books := { ctx.books with executedFilterIndices := ctx.books.executedFilterIndices.set idx true } }

/-- Hands the results that the body pre-read left for this filter back to it. -/
def restorePreRead (name : String) (s : RequestState σ) : RequestState σ :=
  match s.preRead.get name with
  | none => s
  | some rs =>
    { s with
      preRead := s.preRead.remove name
      ctx := { s.ctx with exchange := { s.ctx.exchange with
        filterResults := s.ctx.exchange.filterResults.insert name rs } } }

/-- What the request loop does with the outcome of a filter's branches. -/
def afterBranches (s : RequestState σ) (before : Option ArcStr) :
    HttpFilterContext σ × Except Abort BranchOutcome → Pass (RequestState σ) (RequestEnd σ)
  | (ctx, .error e) => .stop (ctx, .error e)
  | (ctx, .ok .proceed) => .again { s with idx := s.idx + 1, ctx := ctx }
  | (ctx, .ok .terminal) =>
    if branchSelectedUpstream before ctx then .stop (ctx, .ok .proceed)
    else .stop (ctx, .ok (.reject (.ofStatus 500)))
  | (ctx, .ok (.skipTo t)) => .again { s with idx := t, ctx := ctx }
  | (ctx, .ok (.reEnter t)) => .again { s with idx := t, ctx := ctx }
  | (ctx, .ok (.reject r)) => .stop (ctx, .ok (.reject r))
  | (ctx, .ok (.terminalResponse t)) => .stop (ctx, .ok (.terminalResponse t))
  | (ctx, .ok (.streamingTerminalResponse t)) => .stop (ctx, .ok (.streamingTerminalResponse t))

/-- The part of a pass after the filter returned: mark it, then its answer or its branches. -/
def afterOnRequest (pf : PipelineFilter σ) (s : RequestState σ) (ctx : HttpFilterContext σ) :
    Except FilterError HeaderFilterOutcome → Pass (RequestState σ) (RequestEnd σ)
  | .error e => .stop (ctx, .error (.filter e))
  | .ok (.rejected r) => .stop (markTopLevel ctx s.idx, .ok (.reject r))
  | .ok (.terminalResponse t) => .stop (markTopLevel ctx s.idx, .ok (.terminalResponse t))
  | .ok (.streamingTerminalResponse t) => .stop (markTopLevel ctx s.idx, .ok (.streamingTerminalResponse t))
  | .ok .proceed =>
    let ctx := markTopLevel ctx s.idx
    afterBranches s (ctx.exchange.upstream.map (·.address)) (evaluateBranches pf.head.filterId pf.branches ctx)

variable (fs : List (PipelineFilter σ))

/-- One pass of the loop of `execute_http_request`. -/
def requestPass (s : RequestState σ) : Pass (RequestState σ) (RequestEnd σ) :=
  match fs[s.idx]? with
  | none => .stop (s.ctx, .ok .proceed)
  | some pf =>
    match pf.head.filter with
    | .tcp _ => .again { s with idx := s.idx + 1 }
    | .http f =>
      match conditionsAllow pf.head s.ctx with
      | (ctx, false) => .again { s with idx := s.idx + 1, ctx := ctx }
      | (ctx, true) =>
        let s := restorePreRead f.name { s with ctx := ctx }
        match callOnRequest pf.head f s.ctx with
        | (ctx, result) => afterOnRequest pf s ctx (requestOutcome result pf.head.failureMode)

/-- The request phase up to its loop: trace propagation decided, marks reset, pre-read results
held aside. -/
def requestStart (ctx : HttpFilterContext σ) : RequestState σ :=
  let traced := enablesTracePropagation fs ctx
  let ctx := if traced.2 then ensureTraceContext traced.1 else traced.1
  { idx := 0
    preRead := ctx.exchange.filterResults
    ctx := { ctx with
      exchange := { ctx.exchange with filterResults := .empty }
      books := { ctx.books with
        executedFilterIndices := List.replicate fs.length false
        executedBranchFilters := []
        bodyDoneIndices := List.replicate fs.length false } } }

/-- `execute_http_request`, its loop run for at most `fuel` passes. -/
def executeHttpRequest (fuel : Nat) (ctx : HttpFilterContext σ) : Option (RequestEnd σ) :=
  loop (requestPass fs) fuel (requestStart fs ctx)

/-! ## Response phase -/

def skipByResponseConditions (pf : FilterHead σ) (ctx : HttpFilterContext σ) : Bool :=
  match ctx.exchange.responseHeader with
  | none => false
  | some resp => !pf.responseConditions.isEmpty && !shouldExecuteResponse pf.responseConditions resp

/-- How `run_response_filter` and `run_response_hook` read the result of `on_response`. -/
def responseOutcome (result : Except FilterError FilterAction) (mode : FailureMode) : Except FilterError (Option Rejection) :=
  match result with
  | .ok (.reject r) => .ok (some r)
  | .ok _ => .ok none
  | .error e => (checkFailureMode e mode).map fun _ => none

def runResponseHook (pf : FilterHead σ) (ctx : HttpFilterContext σ) :
    HttpFilterContext σ × Except FilterError (Option Rejection) :=
  match pf.filter with
  | .tcp _ => (ctx, .ok none)
  | .http f =>
    let ctx := ctx.record (.considered pf.filterId)
    if skipByResponseConditions pf ctx then (ctx, .ok none)
    else
      let (left, result) := f.onResponse ctx.books { ctx.exchange with currentFilterId := some pf.filterId }
      ({ ctx with exchange := { left with currentFilterId := none } }, responseOutcome result pf.failureMode)

mutual

/-- `unwind_branches` over the branches of one host, last branch first. -/
def unwindBranches : List (ResolvedBranch σ) → HttpFilterContext σ →
    HttpFilterContext σ × Except FilterError (Option Rejection)
  | [], ctx => (ctx, .ok none)
  | branch :: rest, ctx =>
    match unwindBranches rest ctx with
    | (ctx, .ok none) => unwindBranch branch ctx
    | stopped => stopped
termination_by structural branches => branches

/-- The share of one branch in `unwind_branches`. -/
def unwindBranch : ResolvedBranch σ → HttpFilterContext σ → HttpFilterContext σ × Except FilterError (Option Rejection)
  | .mk _ fs, ctx => unwindChain fs ctx
termination_by structural branch => branch

/-- A branch's chain, last filter first. -/
def unwindChain : List (PipelineFilter σ) → HttpFilterContext σ → HttpFilterContext σ × Except FilterError (Option Rejection)
  | [], ctx => (ctx, .ok none)
  | pf :: rest, ctx =>
    match unwindChain rest ctx with
    | (ctx, .ok none) => unwindFilter pf ctx
    | stopped => stopped
termination_by structural fs => fs

/-- One pass of the loop of `unwind_branches`: nested branches first, then the filter itself. -/
def unwindFilter : PipelineFilter σ → HttpFilterContext σ → HttpFilterContext σ × Except FilterError (Option Rejection)
  | .mk pf branches, ctx =>
    if branchFilterExecuted ctx.books.executedBranchFilters pf.filterId then
      match unwindBranches branches ctx with
      | (ctx, .ok none) => runResponseHook pf ctx
      | stopped => stopped
    else (ctx, .ok none)
termination_by structural filter => filter

end

/-- The loop of `execute_http_response` over the filters from index `idx` on, last one first. -/
def responseLoop : Nat → List (PipelineFilter σ) → HttpFilterContext σ →
    HttpFilterContext σ × Except FilterError (Option Rejection)
  | _, [], ctx => (ctx, .ok none)
  | idx, pf :: rest, ctx =>
    match responseLoop (idx + 1) rest ctx with
    | (ctx, .ok none) =>
      if ctx.books.executedFilterIndices[idx]? == some false then (ctx, .ok none)
      else
        match unwindBranches pf.branches ctx with
        | (ctx, .ok none) => runResponseHook pf.head ctx
        | stopped => stopped
    | stopped => stopped

def executeHttpResponse (ctx : HttpFilterContext σ) : HttpFilterContext σ × Except FilterError FilterAction :=
  let ctx := { ctx with books := { ctx.books with bodyDoneIndices := List.replicate fs.length false } }
  match responseLoop 0 fs ctx with
  | (ctx, .ok none) => (ctx, .ok .proceed)
  | (ctx, .ok (some r)) => (ctx, .ok (.reject r))
  | (ctx, .error e) => (ctx, .error e)

end Praxis.Pipeline
