/-
Branch evaluation: a host filter's branches are tried in order against the host's results, and
a firing branch runs its chain, whose filters may host branches of their own. One function per
loop of the source and one per loop body, so that the recursion follows the filter tree.
-/
import Praxis.Pipeline.Context
import Mathlib.Algebra.Ring.Nat

namespace Praxis.Pipeline

variable {σ : Type}

/-- The outcome of evaluating a host's branches; `proceed` is the source's `Continue`. -/
inductive BranchOutcome where
  | proceed
  | terminal
  | skipTo (target : Nat)
  | reEnter (target : Nat)
  | reject (r : Rejection)
  | terminalResponse (t : TerminalResponse)
  | streamingTerminalResponse (t : StreamingTerminalResponse)
deriving Repr, DecidableEq

/-! ## Steps shared by the top level and the branches -/

/-- `retain_filter_results` followed by `filter_results.clear()`, as every caller pairs them. -/
def clearFilterResults (ctx : HttpFilterContext σ) : HttpFilterContext σ :=
  let results := ctx.exchange.filterResults
  let retained := if results.isEmpty then ctx.exchange.retainedFilterResults
    else ctx.exchange.retainedFilterResults.map (·.extend results)
  { ctx with exchange := { ctx.exchange with filterResults := .empty, retainedFilterResults := retained } }

def ensureTraceContext (ctx : HttpFilterContext σ) : HttpFilterContext σ :=
  { ctx with exchange := { ctx.exchange with traceContext := true } }

/-- The gate before a filter: no conditions, or conditions that hold for the request and the
published selection. -/
def conditionsAllow (pf : FilterHead σ) (ctx : HttpFilterContext σ) : HttpFilterContext σ × Bool :=
  if pf.conditions.isEmpty then (ctx, true)
  else (ctx.record (.evaluated pf.filterId pf.conditions),
    shouldExecuteBoundSelected pf.conditions ctx.exchange.request .default ctx.exchange.selected)

/-- Whether the outcome of a hook propagates as a fail-closed error. -/
def propagates (result : Except FilterError FilterAction) (mode : FailureMode) : Bool :=
  match result with
  | .error _ => mode == .closed
  | .ok _ => false

/-- One `on_request` call, with `current_filter_id` set around it. -/
def callOnRequest (pf : FilterHead σ) (f : HttpFilter σ) (ctx : HttpFilterContext σ) :
    HttpFilterContext σ × Except FilterError FilterAction :=
  let (left, result) := f.onRequest ctx.books { ctx.exchange with currentFilterId := some pf.filterId }
  ({ ctx with
      exchange := { left with currentFilterId := none }
      log := ctx.log ++ [.called pf.filterId f.name ctx.exchange.filterResults left.filterResults
        (!propagates result pf.failureMode)] }, result)

/-- `branch_request_outcome`: `none` goes on with the chain, `some` stops it. -/
def branchRequestOutcome (result : Except FilterError FilterAction) (mode : FailureMode) :
    Except FilterError (Option FilterAction) :=
  match result with
  | .ok .proceed | .ok .release | .ok .bodyDone => .ok none
  | .ok action => .ok (some action)
  | .error e => (checkFailureMode e mode).map fun _ => none

/-- `record_executed_branch_filter`: grow the marks to `id` and set the mark. -/
def recordExecutedBranchFilter (executed : List Bool) (id : Nat) : List Bool :=
  (executed ++ List.replicate (id + 1 - executed.length) false).set id true

def branchFilterExecuted (executed : List Bool) (id : Nat) : Bool := executed[id]? == some true

def markBranchFilter (ctx : HttpFilterContext σ) (id : Nat) : HttpFilterContext σ :=
  { ctx with books := { ctx.books with
      executedBranchFilters := recordExecutedBranchFilter ctx.books.executedBranchFilters id } }

/-! ## Branch decisions -/

/-- The result entry a branch condition looks at. -/
def consulted (b : BranchHead) (results : FilterResults) : Option FilterResultSet :=
  b.condition.bind fun cond => results.get cond.filterName

def shouldBranchFire (b : BranchHead) (results : FilterResults) : Bool :=
  match b.condition with
  | none => true
  | some cond => matchesFilterResult results cond.filterName cond.key cond.matcher

def bumpIterations (ctx : HttpFilterContext σ) (name : String) : HttpFilterContext σ :=
  { ctx with books := { ctx.books with
      branchIterations := Function.update ctx.books.branchIterations name (ctx.books.branchIterations name + 1) } }

/-- `check_reentrance_limit`: a `ReEnter` branch counts every attempt, refused or not, and is
refused once the count passes its limit. The counter is a `u32` with overflow checks on. -/
def checkReentranceLimit (host : Nat) (b : BranchHead) (ctx : HttpFilterContext σ) :
    HttpFilterContext σ × Except Abort Bool :=
  match b.rejoin with
  | .reEnter _ =>
    let count := ctx.books.branchIterations b.name
    let ctx := ctx.record (.counted host b count)
    if count + 1 < 2 ^ 32 then
      (bumpIterations ctx b.name, .ok (b.maxIterations.all fun max => decide (count + 1 ≤ max)))
    else (ctx, .error .overflow)
  | _ => (ctx, .ok true)

/-- `ensure_branch_trace_context`: the conditions of the chain's `trace_context` filters are
evaluated before any filter of the chain runs. -/
def ensureBranchTraceContext : List (PipelineFilter σ) → HttpFilterContext σ → HttpFilterContext σ
  | [], ctx => ctx
  | pf :: rest, ctx =>
    if pf.head.filter.name == "trace_context" then
      let ctx := ctx.record (.evaluated pf.head.filterId pf.head.conditions)
      if shouldExecuteBoundSelected pf.head.conditions ctx.exchange.request .default ctx.exchange.selected then
        ensureTraceContext ctx
      else ensureBranchTraceContext rest ctx
    else ensureBranchTraceContext rest ctx

/-- `map_nested_outcome`: jumps of a nested branch are discarded, a nested terminal fails closed. -/
def mapNestedOutcome : BranchOutcome → Option FilterAction
  | .proceed => none
  | .skipTo _ => none
  | .reEnter _ => none
  | .terminal => some (.reject (.ofStatus 500))
  | .reject r => some (.reject r)
  | .terminalResponse t => some (.terminalResponse t)
  | .streamingTerminalResponse t => some (.streamingTerminalResponse t)

/-- Whether the loop over a host's branches goes on (with the snapshot of the host's results, if
one was taken) or ends with an outcome. -/
inductive BranchFlow where
  | next (hostResults : Option FilterResults)
  | done (outcome : BranchOutcome)
deriving Repr, DecidableEq

/-- What follows a chain that ran to its end or stopped with an action. -/
def rejoinAfter (b : BranchHead) (snapshot : FilterResults) (ctx : HttpFilterContext σ) :
    FilterAction → HttpFilterContext σ × BranchFlow
  | .reject r => (ctx, .done (.reject r))
  | .terminalResponse t => (ctx, .done (.terminalResponse t))
  | .streamingTerminalResponse t => (ctx, .done (.streamingTerminalResponse t))
  | .proceed | .release | .bodyDone =>
    match b.rejoin with
    | .next => (ctx, .next (some snapshot))
    | .terminal => (ctx, .done .terminal)
    | .skipTo t => (clearFilterResults ctx, .done (.skipTo t))
    | .reEnter t => (clearFilterResults ctx, .done (.reEnter t))

/-! ## The evaluator -/

mutual

/-- The loop of `evaluate_branches_inner`; `hostResults` is the snapshot taken when the first
branch ran. -/
def evaluateBranchesInner (host : Nat) : List (ResolvedBranch σ) → Option FilterResults → HttpFilterContext σ →
    HttpFilterContext σ × Except Abort BranchOutcome
  | [], _, ctx => (clearFilterResults ctx, .ok .proceed)
  | branch :: rest, hostResults, ctx =>
    match evaluateBranch host branch hostResults ctx with
    | (ctx, .error e) => (ctx, .error e)
    | (ctx, .ok (.done outcome)) => (ctx, .ok outcome)
    | (ctx, .ok (.next hostResults)) => evaluateBranchesInner host rest hostResults ctx
termination_by structural branches => branches

/-- One pass of the loop of `evaluate_branches_inner`. -/
def evaluateBranch (host : Nat) : ResolvedBranch σ → Option FilterResults → HttpFilterContext σ →
    HttpFilterContext σ × Except Abort BranchFlow
  | .mk b fs, hostResults, ctx =>
    let results := hostResults.getD ctx.exchange.filterResults
    let ctx := ctx.record (.decided host b (consulted b results) (shouldBranchFire b results))
    if shouldBranchFire b results then
      match checkReentranceLimit host b ctx with
      | (ctx, .error e) => (ctx, .error e)
      | (ctx, .ok false) => (ctx, .ok (.next hostResults))
      | (ctx, .ok true) =>
        match executeBranchLoop fs (ensureBranchTraceContext fs ctx) with
        | (ctx, .error e) => (ctx, .error e)
        | (ctx, .ok action) => ((rejoinAfter b results ctx action).1, .ok (rejoinAfter b results ctx action).2)
    else (ctx, .ok (.next hostResults))
termination_by structural branch => branch

/-- The loop of `execute_branch_filters`, after its `ensure_branch_trace_context`. -/
def executeBranchLoop : List (PipelineFilter σ) → HttpFilterContext σ → HttpFilterContext σ × Except Abort FilterAction
  | [], ctx => (ctx, .ok .proceed)
  | pf :: rest, ctx =>
    match executeBranchFilter pf ctx with
    | (ctx, .error e) => (ctx, .error e)
    | (ctx, .ok (some action)) => (ctx, .ok action)
    | (ctx, .ok none) => executeBranchLoop rest ctx
termination_by structural fs => fs

/-- One pass of the loop of `execute_branch_filters`. An empty branch list leaves
`evaluateBranchesInner` the way the source's fast path does: results retained and cleared. -/
def executeBranchFilter : PipelineFilter σ → HttpFilterContext σ → HttpFilterContext σ × Except Abort (Option FilterAction)
  | .mk pf branches, ctx =>
    match pf.filter with
    | .tcp _ => (ctx, .ok none)
    | .http f =>
      match conditionsAllow pf ctx with
      | (ctx, false) => (ctx, .ok none)
      | (ctx, true) =>
        match callOnRequest pf f ctx with
        | (ctx, result) =>
          match branchRequestOutcome result pf.failureMode with
          | .error e => (ctx, .error (.filter e))
          | .ok (some action) => (markBranchFilter ctx pf.filterId, .ok (some action))
          | .ok none =>
            match evaluateBranchesInner pf.filterId branches none (markBranchFilter ctx pf.filterId) with
            | (ctx, .error e) => (ctx, .error e)
            | (ctx, .ok outcome) => (ctx, .ok (mapNestedOutcome outcome))
termination_by structural filter => filter

end

/-- `evaluate_branches`, with its fast path for a host without branches. -/
def evaluateBranches (host : Nat) (branches : List (ResolvedBranch σ)) (ctx : HttpFilterContext σ) :
    HttpFilterContext σ × Except Abort BranchOutcome :=
  if branches.isEmpty then (clearFilterResults ctx, .ok .proceed)
  else evaluateBranchesInner host branches none ctx

theorem evaluateBranches_eq (host : Nat) (branches : List (ResolvedBranch σ)) (ctx : HttpFilterContext σ) :
    evaluateBranches host branches ctx = evaluateBranchesInner host branches none ctx := by
  cases branches with
  | nil => rw [evaluateBranches, evaluateBranchesInner]; rfl
  | cons b bs => rfl

end Praxis.Pipeline
