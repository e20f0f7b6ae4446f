/-
Branch resolution: configuration entries become the filter tree. Every level first instantiates
its own filters and then resolves their branches one level down; one counter hands out filter
ids across the whole tree. The nesting budget is the recursion's fuel, so resolution is total
even when named chains refer to each other in a cycle.
-/
import Praxis.Pipeline.Tree

namespace Praxis.Pipeline

variable {σ κ : Type}

/-! ## Configuration -/

structure BranchCondition where
  filter : String
  key : String
  value : ResultMatch
deriving Repr, DecidableEq

/-- A `FilterEntry` without its branch chains; `config` is the filter's own configuration. -/
structure EntryHead (κ : Type) where
  filterType : String
  config : κ
  conditions : List Condition
  name : Option String
  responseConditions : List ResponseCondition
  failureMode : FailureMode

/-- A `BranchChainConfig` without its chains. -/
structure BranchConfigHead where
  name : String
  maxIterations : Option Nat
  onResult : Option BranchCondition
  rejoin : String
deriving Repr, DecidableEq

mutual

inductive FilterEntry (κ : Type) where
  | mk (head : EntryHead κ) (branchChains : Option (List (BranchChainConfig κ)))

inductive BranchChainConfig (κ : Type) where
  | mk (head : BranchConfigHead) (chains : List (ChainRef κ))

inductive ChainRef (κ : Type) where
  | inline (name : String) (fs : List (FilterEntry κ))
  | named (name : String)

end

/-- An entry without conditions or branches, failing closed. -/
def EntryHead.plain (filterType : String) (name : Option String) : EntryHead Unit :=
  { filterType := filterType, config := (), conditions := [], name := name, responseConditions := []
    failureMode := .closed }

/-- What the build makes of a plain entry of an unclassified type. -/
def FilterHead.plain (id : Nat) (name : Option String) (filter : AnyFilter σ) : FilterHead σ :=
  { filterId := id, name := name, filter := filter, conditions := [], responseConditions := []
    failureMode := .closed, isSecurity := false }

/-- The filter registry. Creating a filter may bind outbound chains, which spends instances of
the shared budget and sees the stack of chains being resolved. -/
structure FilterRegistry (σ κ : Type) where
  create : String → κ → List String → Nat → Except FilterError (AnyFilter σ × Nat)
  isSecurityFilter : String → Bool

/-- A registry that knows every type name and makes filters that do nothing. -/
def noopRegistry : FilterRegistry Unit Unit :=
  { create := fun name _ _ budget => .ok (.http (.noop name), budget), isSecurityFilter := fun _ => false }

/-- What the build threads through the recursion. -/
structure BuildState where
  nextFilterId : Nat
  budget : Nat
deriving Repr, DecidableEq

abbrev BuildM := StateT BuildState (Except FilterError)

def maxBranchDepth : Nat := 10

def maxPipelineFilterInstances : Nat := 100000

/-! ## Filter construction -/

def rejectTcpUnsupportedFields (filter : AnyFilter σ) (entry : EntryHead κ)
    (branchChains : Option (List (BranchChainConfig κ))) : Except FilterError Unit :=
  match filter with
  | .http _ => .ok ()
  | .tcp name =>
    if !entry.conditions.isEmpty || !entry.responseConditions.isEmpty then
      .error ⟨s!"filter '{name}': conditions are not supported on TCP filters; they apply to HTTP filters only"⟩
    else if branchChains.isSome then
      .error ⟨s!"filter '{name}': branch_chains are not supported on TCP filters; they apply to HTTP filters only"⟩
    else .ok ()

/-- The body of the loop of `build_filters`: one entry becomes one filter with a fresh id. -/
def buildFilter (reg : FilterRegistry σ κ) (stack : List String) (entry : EntryHead κ)
    (branchChains : Option (List (BranchChainConfig κ))) : BuildM (FilterHead σ) := fun st => do
  let (filter, spent) ← reg.create entry.filterType entry.config stack st.budget
  rejectTcpUnsupportedFields filter entry branchChains
  if spent + 1 > maxPipelineFilterInstances then
    .error ⟨s!"pipeline build exceeded {maxPipelineFilterInstances} filter instances; a branch or outbound chain likely fans out over named references (reduce references per branch or nesting depth)"⟩
  else
    .ok ({ filterId := st.nextFilterId
           name := entry.name
           filter := filter
           conditions := entry.conditions
           responseConditions := entry.responseConditions
           failureMode := entry.failureMode
           isSecurity := reg.isSecurityFilter entry.filterType },
      { nextFilterId := st.nextFilterId + 1, budget := spent + 1 })

/-- `build_filters`: the filters of one level, each with its branch configuration. -/
def buildFilters (reg : FilterRegistry σ κ) (stack : List String) : List (FilterEntry κ) →
    BuildM (List (FilterHead σ × Option (List (BranchChainConfig κ))))
  | [] => pure []
  | .mk entry branchChains :: rest => do
    let pf ← buildFilter reg stack entry branchChains
    let more ← buildFilters reg stack rest
    pure ((pf, branchChains) :: more)

/-! ## Branch resolution -/

/-- `build_name_index`, read at one name: the positions that carry it. -/
def nameIndex (names : List (Option String)) (target : String) : List Nat :=
  (List.range names.length).filter fun i => names[i]? == some (some target)

def resolveNamedRejoin (target : String) (names : List (Option String)) (currentIdx : Nat) :
    Except FilterError RejoinTarget :=
  match nameIndex names target with
  | [idx] => if idx ≤ currentIdx then .ok (.reEnter idx) else .ok (.skipTo idx)
  | [] => .error ⟨s!"rejoin target '{target}' not found in pipeline"⟩
  | indices => .error ⟨s!"rejoin target '{target}' is ambiguous: {indices.length} filters in the flattened pipeline share this name (positions {indices}); filter names used as rejoin targets must be unique across all chains referenced by a listener"⟩

def resolveRejoin (rejoin : String) (names : List (Option String)) (currentIdx : Nat) : Except FilterError RejoinTarget :=
  if rejoin = "next" then .ok .next
  else if rejoin = "terminal" ∨ rejoin = "client" then .ok .terminal
  else resolveNamedRejoin rejoin names currentIdx

/-- `check_on_result_filter`: a branch may only look at the results of its own host. -/
def checkOnResultFilter (config : BranchConfigHead) (host : String) : Except FilterError Unit :=
  match config.onResult with
  | none => .ok ()
  | some cond =>
    if cond.filter = host then .ok ()
    else .error ⟨s!"branch '{config.name}': on_result.filter '{cond.filter}' must name the filter the branch is attached to ('{host}'); other filters' results are cleared before this branch is evaluated, so the condition could never match"⟩

def resolveCondition (cond : BranchCondition) : ResolvedBranchCondition :=
  { filterName := cond.filter, key := cond.key, matcher := cond.value }

/-- The check of `resolve_single_branch` that a backward rejoin has an iteration limit. -/
def checkBackwardRejoin (config : BranchConfigHead) : RejoinTarget → Except FilterError Unit
  | .reEnter _ =>
    if config.maxIterations.isNone then
      .error ⟨s!"branch '{config.name}': backward rejoin '{config.rejoin}' requires max_iterations to prevent infinite loops"⟩
    else .ok ()
  | _ => .ok ()

/-- `ResolutionStack::enter`. -/
def enterChain (stack : List String) (name : String) : Except FilterError (List String) :=
  let cycle := " -> ".intercalate (stack.dropWhile (· != name) ++ [name])
  if stack.contains name then .error ⟨s!"chain reference cycle detected: {cycle}"⟩
  else .ok (stack ++ [name])

section Resolve

/-! The chain resolver one level down is the parameter `resolve`. -/

variable (chains : String → Option (List (FilterEntry κ)))
  (resolve : List String → List (FilterEntry κ) → BuildM (List (PipelineFilter σ)))

/-- `resolve_chain_refs`: each reference is resolved on its own and the results are joined. -/
def resolveChainRefs (stack : List String) : List (ChainRef κ) → BuildM (List (PipelineFilter σ))
  | [] => pure []
  | .named name :: rest => do
    match chains name with
    | none => throw ⟨s!"branch references unknown chain '{name}'"⟩
    | some es =>
      let inner ← liftM (enterChain stack name)
      let fs ← resolve inner es
      let more ← resolveChainRefs stack rest
      pure (fs ++ more)
  | .inline _ es :: rest => do
    let fs ← resolve stack es
    let more ← resolveChainRefs stack rest
    pure (fs ++ more)

def resolveSingleBranch (stack : List String) (host : String) (names : List (Option String)) (currentIdx : Nat) :
    BranchChainConfig κ → BuildM (ResolvedBranch σ)
  | .mk config refs => do
    liftM (checkOnResultFilter config host)
    let fs ← resolveChainRefs chains resolve stack refs
    let rejoin ← liftM (resolveRejoin config.rejoin names currentIdx)
    liftM (checkBackwardRejoin config rejoin)
    pure (.mk { name := config.name
                condition := config.onResult.map resolveCondition
                maxIterations := config.maxIterations
                rejoin := rejoin } fs)

def resolveBranches (stack : List String) (host : String) (names : List (Option String)) (currentIdx : Nat) :
    List (BranchChainConfig κ) → BuildM (List (ResolvedBranch σ))
  | [] => pure []
  | config :: rest => do
    let branch ← resolveSingleBranch chains resolve stack host names currentIdx config
    let more ← resolveBranches stack host names currentIdx rest
    pure (branch :: more)

/-- `attach_branches`, from position `idx` on. -/
def attachBranches (stack : List String) (names : List (Option String)) (idx : Nat) :
    List (FilterHead σ × Option (List (BranchChainConfig κ))) → BuildM (List (PipelineFilter σ))
  | [] => pure []
  | (pf, configs) :: rest => do
    let branches ← resolveBranches chains resolve stack pf.filter.name names idx (configs.getD [])
    let more ← attachBranches stack names (idx + 1) rest
    pure (.mk pf branches :: more)

end Resolve

/-- `resolve_chain_filters_with_stack`; `levels` is what is left of the branch depth. -/
def resolveChainFilters (reg : FilterRegistry σ κ) (chains : String → Option (List (FilterEntry κ))) :
    Nat → List String → List (FilterEntry κ) → BuildM (List (PipelineFilter σ))
  | 0, _, _ => throw ⟨s!"branch nesting depth exceeds maximum ({maxBranchDepth})"⟩
  | levels + 1, stack, es => do
    let built ← buildFilters reg stack es
    attachBranches chains (resolveChainFilters reg chains levels) stack (built.map (·.1.name)) 0 built

/-- `build_with_chains`: the filters of a pipeline from its entries and the named chains. -/
def buildWithChains (reg : FilterRegistry σ κ) (chains : String → Option (List (FilterEntry κ)))
    (es : List (FilterEntry κ)) : Except FilterError (List (PipelineFilter σ)) :=
  (resolveChainFilters reg chains (maxBranchDepth + 1) [] es ⟨0, 0⟩).map (·.1)

end Praxis.Pipeline
