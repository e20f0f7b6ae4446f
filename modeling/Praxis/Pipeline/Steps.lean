/-
What the branch evaluator can do to a context, said once. A run of branches is a sequence of
small steps (a filter call, a recorded decision, a raised counter, cleared results), and every
call is made below a host whose own `on_request` has returned. The invariants of the evaluator
that do not depend on the order of branches follow from the steps alone.
-/
import Praxis.Pipeline.Evaluate
import Praxis.Pipeline.Tree

namespace Praxis.Pipeline

open List Relation

variable {σ : Type}

/-! ## Small facts about the parts -/

/-- The id has a call in the log that returned without propagating an error. -/
def Returned (id : Nat) (log : List Event) : Prop := ∃ name before after, Event.called id name before after true ∈ log

theorem Returned.mono {id : Nat} {log log' : List Event} (h : Returned id log) (hp : log <+: log') : Returned id log' := by
  obtain ⟨name, before, after, hm⟩ := h
  exact ⟨name, before, after, hp.subset hm⟩

section

variable (pf : FilterHead σ) (f : HttpFilter σ) (ctx : HttpFilterContext σ)

/-- The event that `callOnRequest` records. -/
def callEvent : Event :=
  let r := f.onRequest ctx.books { ctx.exchange with currentFilterId := some pf.filterId }
  .called pf.filterId f.name ctx.exchange.filterResults r.1.filterResults (!propagates r.2 pf.failureMode)

@[simp] theorem callOnRequest_log : (callOnRequest pf f ctx).1.log = ctx.log ++ [callEvent pf f ctx] := rfl

@[simp] theorem callOnRequest_books : (callOnRequest pf f ctx).1.books = ctx.books := rfl

@[simp] theorem clearFilterResults_log : (clearFilterResults ctx).log = ctx.log := rfl

@[simp] theorem clearFilterResults_books : (clearFilterResults ctx).books = ctx.books := rfl

@[simp] theorem ensureTraceContext_log : (ensureTraceContext ctx).log = ctx.log := rfl

/-- The context after a call inside a branch: marked unless the call propagates an error. -/
def calledInBranch : HttpFilterContext σ :=
  if propagates (callOnRequest pf f ctx).2 pf.failureMode then (callOnRequest pf f ctx).1
  else markBranchFilter (callOnRequest pf f ctx).1 pf.filterId

@[simp] theorem calledInBranch_log : (calledInBranch pf f ctx).log = ctx.log ++ [callEvent pf f ctx] := by
  unfold calledInBranch
  split <;> rfl

@[simp] theorem calledInBranch_exchange : (calledInBranch pf f ctx).exchange = (callOnRequest pf f ctx).1.exchange := by
  unfold calledInBranch
  split <;> rfl

variable {result : Except FilterError FilterAction} {mode : FailureMode} {stop : Option FilterAction} {action : FilterAction}

theorem branchRequestOutcome_error {e : FilterError} (h : branchRequestOutcome result mode = .error e) :
    propagates result mode = true := by
  cases result with
  | ok a => cases a <;> cases h
  | error e' =>
    cases mode with
    | closed => rfl
    | «open» => cases h

theorem branchRequestOutcome_ok (h : branchRequestOutcome result mode = .ok stop) : propagates result mode = false := by
  cases result with
  | ok a => rfl
  | error e' =>
    cases mode with
    | closed => cases h
    | «open» => rfl

/-- The action ends the phase. -/
def FilterAction.stops : FilterAction → Bool
  | .reject _ | .terminalResponse _ | .streamingTerminalResponse _ => true
  | .proceed | .release | .bodyDone => false

theorem branchRequestOutcome_stops (h : branchRequestOutcome result mode = .ok (some action)) : action.stops = true := by
  cases result with
  | ok a => cases a <;> cases h <;> rfl
  | error e => cases mode <;> cases h

theorem mapNestedOutcome_stops {o : BranchOutcome} (h : mapNestedOutcome o = some action) : action.stops = true := by
  cases o <;> cases h <;> rfl

theorem returned_callOnRequest {pf : FilterHead σ} {f : HttpFilter σ} {ctx : HttpFilterContext σ}
    (h : propagates (callOnRequest pf f ctx).2 pf.failureMode = false) :
    Returned pf.filterId (ctx.log ++ [callEvent pf f ctx]) := by
  refine ⟨f.name, ctx.exchange.filterResults, (callOnRequest pf f ctx).1.exchange.filterResults,
    mem_append_right _ (mem_singleton.2 ?_)⟩
  have h' : propagates (f.onRequest ctx.books { ctx.exchange with currentFilterId := some pf.filterId }).2
      pf.failureMode = false := h
  rw [callEvent, h']
  rfl

/-- After a call inside a branch that did not propagate an error, the filter counts as returned. -/
theorem returned_calledInBranch {pf : FilterHead σ} {f : HttpFilter σ} {ctx : HttpFilterContext σ}
    (h : branchRequestOutcome (callOnRequest pf f ctx).2 pf.failureMode = .ok stop) :
    Returned pf.filterId (calledInBranch pf f ctx).log := by
  rw [calledInBranch_log]
  exact returned_callOnRequest (branchRequestOutcome_ok h)

/-- What the limit check leaves: the context as it was, with the count noted, or with one more iteration. -/
theorem checkReentranceLimit_rule {P : HttpFilterContext σ → Prop} {host : Nat} {b : BranchHead} {ctx : HttpFilterContext σ}
    (h : P ctx) (hcounted : P (ctx.record (.counted host b (ctx.books.branchIterations b.name))))
    (hbumped : P (bumpIterations (ctx.record (.counted host b (ctx.books.branchIterations b.name))) b.name)) :
    P (checkReentranceLimit host b ctx).1 := by
  unfold checkReentranceLimit
  split
  · dsimp only
    split
    · exact hbumped
    · exact hcounted
  · exact h

/-! ## Runs -/

/-- The context after the decision on a branch. -/
def decideBranch (host : Nat) (b : BranchHead) (hr : Option FilterResults) (ctx : HttpFilterContext σ) :
    HttpFilterContext σ :=
  let results := hr.getD ctx.exchange.filterResults
  ctx.record (.decided host b (consulted b results) (shouldBranchFire b results))

/-- The outcome of the call of a filter in a branch, once its conditions were consulted. -/
def outcomeInBranch : Except FilterError (Option FilterAction) :=
  branchRequestOutcome (callOnRequest pf f (conditionsAllow pf ctx).1).2 pf.failureMode

/-- The context after that call. -/
def enterInBranch : HttpFilterContext σ := calledInBranch pf f (conditionsAllow pf ctx).1

end

mutual

/-- The runs of the loop over a host's branches: from a context to a context and a result. -/
inductive BranchesRun : Nat → List (ResolvedBranch σ) → Option FilterResults → HttpFilterContext σ →
    HttpFilterContext σ → Except Abort BranchOutcome → Prop
  | nil : BranchesRun host [] hr ctx (clearFilterResults ctx) (.ok .proceed)
  | failed (h : BranchRun host b hr ctx ctx' (.error e)) : BranchesRun host (b :: bs) hr ctx ctx' (.error e)
  | done (h : BranchRun host b hr ctx ctx' (.ok (.done o))) : BranchesRun host (b :: bs) hr ctx ctx' (.ok o)
  | next (h : BranchRun host b hr ctx ctx₁ (.ok (.next hr₁))) (hrest : BranchesRun host bs hr₁ ctx₁ ctx' r) :
    BranchesRun host (b :: bs) hr ctx ctx' r

/-- The runs of one branch: not fired, its limit overflowed or used up, or its chain run. -/
inductive BranchRun : Nat → ResolvedBranch σ → Option FilterResults → HttpFilterContext σ →
    HttpFilterContext σ → Except Abort BranchFlow → Prop
  | passed (hfires : shouldBranchFire b.head (hr.getD ctx.exchange.filterResults) = false) :
    BranchRun host b hr ctx (decideBranch host b.head hr ctx) (.ok (.next hr))
  | overflowed (hcheck : checkReentranceLimit host b.head (decideBranch host b.head hr ctx) = (ctx', .error e)) :
    BranchRun host b hr ctx ctx' (.error e)
  | refused (hcheck : checkReentranceLimit host b.head (decideBranch host b.head hr ctx) = (ctx', .ok false)) :
    BranchRun host b hr ctx ctx' (.ok (.next hr))
  | aborted (hcheck : checkReentranceLimit host b.head (decideBranch host b.head hr ctx) = (ctx₁, .ok true))
    (h : ChainRun b.filters (ensureBranchTraceContext b.filters ctx₁) ctx' (.error e)) :
    BranchRun host b hr ctx ctx' (.error e)
  | ran (hcheck : checkReentranceLimit host b.head (decideBranch host b.head hr ctx) = (ctx₁, .ok true))
    (h : ChainRun b.filters (ensureBranchTraceContext b.filters ctx₁) ctx₂ (.ok action)) :
    BranchRun host b hr ctx (rejoinAfter b.head (hr.getD ctx.exchange.filterResults) ctx₂ action).1
      (.ok (rejoinAfter b.head (hr.getD ctx.exchange.filterResults) ctx₂ action).2)

/-- The runs of a branch's chain. -/
inductive ChainRun : List (PipelineFilter σ) → HttpFilterContext σ → HttpFilterContext σ →
    Except Abort FilterAction → Prop
  | nil : ChainRun [] ctx ctx (.ok .proceed)
  | failed (h : FilterRun pf ctx ctx' (.error e)) : ChainRun (pf :: rest) ctx ctx' (.error e)
  | stopped (h : FilterRun pf ctx ctx' (.ok (some action))) : ChainRun (pf :: rest) ctx ctx' (.ok action)
  | next (h : FilterRun pf ctx ctx₁ (.ok none)) (hrest : ChainRun rest ctx₁ ctx' r) : ChainRun (pf :: rest) ctx ctx' r

/-- The runs of a filter of a chain, with the branches it hosts. -/
inductive FilterRun : PipelineFilter σ → HttpFilterContext σ → HttpFilterContext σ →
    Except Abort (Option FilterAction) → Prop
  | tcp (hf : pf.head.filter = .tcp name) : FilterRun pf ctx ctx (.ok none)
  | skipped (hf : pf.head.filter = .http f) (hskip : (conditionsAllow pf.head ctx).2 = false) :
    FilterRun pf ctx (conditionsAllow pf.head ctx).1 (.ok none)
  | failed (hf : pf.head.filter = .http f) (hout : outcomeInBranch pf.head f ctx = .error e) :
    FilterRun pf ctx (enterInBranch pf.head f ctx) (.error (.filter e))
  | answered (hf : pf.head.filter = .http f) (hout : outcomeInBranch pf.head f ctx = .ok (some action)) :
    FilterRun pf ctx (enterInBranch pf.head f ctx) (.ok (some action))
  | aborted (hf : pf.head.filter = .http f) (hout : outcomeInBranch pf.head f ctx = .ok none)
    (h : BranchesRun pf.head.filterId pf.branches none (enterInBranch pf.head f ctx) ctx' (.error e)) :
    FilterRun pf ctx ctx' (.error e)
  | branched (hf : pf.head.filter = .http f) (hout : outcomeInBranch pf.head f ctx = .ok none)
    (h : BranchesRun pf.head.filterId pf.branches none (enterInBranch pf.head f ctx) ctx' (.ok o)) :
    FilterRun pf ctx ctx' (.ok (mapNestedOutcome o))

end

mutual

theorem evaluateBranchesInner_run (host : Nat) : ∀ (bs : List (ResolvedBranch σ)) (hr : Option FilterResults)
    (ctx : HttpFilterContext σ) {ctx' : HttpFilterContext σ} {r : Except Abort BranchOutcome},
      evaluateBranchesInner host bs hr ctx = (ctx', r) → BranchesRun host bs hr ctx ctx' r
  | [], hr, ctx, ctx', r, h => by
    rw [evaluateBranchesInner] at h
    cases h
    exact .nil
  | b :: bs, hr, ctx, ctx', r, h => by
    rw [evaluateBranchesInner] at h
    split at h
    · cases h
      exact .failed (evaluateBranch_run host b hr ctx (by assumption))
    · cases h
      exact .done (evaluateBranch_run host b hr ctx (by assumption))
    · exact .next (evaluateBranch_run host b hr ctx (by assumption)) (evaluateBranchesInner_run host bs _ _ h)

theorem evaluateBranch_run (host : Nat) : ∀ (b : ResolvedBranch σ) (hr : Option FilterResults)
    (ctx : HttpFilterContext σ) {ctx' : HttpFilterContext σ} {r : Except Abort BranchFlow},
      evaluateBranch host b hr ctx = (ctx', r) → BranchRun host b hr ctx ctx' r
  | .mk b fs, hr, ctx, ctx', r, h => by
    rw [evaluateBranch] at h
    split at h
    · split at h
      · cases h
        exact .overflowed (by assumption)
      · cases h
        exact .refused (by assumption)
      · split at h
        · cases h
          exact .aborted (by assumption) (executeBranchLoop_run fs _ (by assumption))
        · cases h
          exact .ran (by assumption) (executeBranchLoop_run fs _ (by assumption))
    · cases h
      exact .passed (Bool.eq_false_iff.2 (by assumption))

theorem executeBranchLoop_run : ∀ (fs : List (PipelineFilter σ)) (ctx : HttpFilterContext σ)
    {ctx' : HttpFilterContext σ} {r : Except Abort FilterAction},
      executeBranchLoop fs ctx = (ctx', r) → ChainRun fs ctx ctx' r
  | [], ctx, ctx', r, h => by
    rw [executeBranchLoop] at h
    cases h
    exact .nil
  | pf :: rest, ctx, ctx', r, h => by
    rw [executeBranchLoop] at h
    split at h
    · cases h
      exact .failed (executeBranchFilter_run pf ctx (by assumption))
    · cases h
      exact .stopped (executeBranchFilter_run pf ctx (by assumption))
    · exact .next (executeBranchFilter_run pf ctx (by assumption)) (executeBranchLoop_run rest _ h)

theorem executeBranchFilter_run : ∀ (pf : PipelineFilter σ) (ctx : HttpFilterContext σ)
    {ctx' : HttpFilterContext σ} {r : Except Abort (Option FilterAction)},
      executeBranchFilter pf ctx = (ctx', r) → FilterRun pf ctx ctx' r
  | .mk pf branches, ctx, ctx', r, h => by
    rw [executeBranchFilter] at h
    split at h
    · cases h
      exact .tcp (by assumption)
    · rename_i f hf
      split at h
      · rename_i ctx₁ hallow
        cases h
        rw [show ctx' = (conditionsAllow pf ctx).1 by rw [hallow]]
        exact .skipped hf (by rw [PipelineFilter.head, hallow])
      · rename_i ctx₁ hallow
        obtain rfl : (conditionsAllow pf ctx).1 = ctx₁ := by rw [hallow]
        dsimp only at h
        -- the call is marked exactly when it does not propagate an error
        split at h
        · rename_i e hout
          cases h
          have hcalled : enterInBranch pf f ctx = (callOnRequest pf f (conditionsAllow pf ctx).1).1 :=
            if_pos (branchRequestOutcome_error hout)
          exact hcalled ▸ .failed hf hout
        all_goals
          rename_i hout
          have hcalled : enterInBranch pf f ctx =
              markBranchFilter (callOnRequest pf f (conditionsAllow pf ctx).1).1 pf.filterId :=
            if_neg (by rw [branchRequestOutcome_ok hout]; decide)
          rw [← hcalled] at h
        · cases h
          exact .answered hf hout
        · split at h
          · cases h
            exact .aborted hf hout (evaluateBranchesInner_run pf.filterId branches none _ (by assumption))
          · cases h
            exact .branched hf hout (evaluateBranchesInner_run pf.filterId branches none _ (by assumption))

end

/-! ## Steps -/

/-- One step of branch evaluation. `E h b` says that `b` is a branch of the filter with id `h`. -/
inductive BranchStep (E : Nat → ResolvedBranch σ → Prop) : HttpFilterContext σ → HttpFilterContext σ → Prop
  | clear (ctx) : BranchStep E ctx (clearFilterResults ctx)
  | trace (ctx) : BranchStep E ctx (ensureTraceContext ctx)
  | evaluated (ctx) (id : Nat) (conditions : List Condition) : BranchStep E ctx (ctx.record (.evaluated id conditions))
  | decided (ctx) (host : Nat) (b : BranchHead) (entry : Option FilterResultSet) (fires : Bool) :
    BranchStep E ctx (ctx.record (.decided host b entry fires))
  | checked (ctx) {host : Nat} {b : ResolvedBranch σ} (hE : E host b) :
    BranchStep E ctx (checkReentranceLimit host b.head ctx).1
  | called (ctx) {host : Nat} {b : ResolvedBranch σ} {pf : PipelineFilter σ} {f : HttpFilter σ} (hE : E host b)
    (hpf : pf ∈ b.filters) (hf : pf.head.filter = .http f) (hr : Returned host ctx.log) :
    BranchStep E ctx (calledInBranch pf.head f ctx)

/-- A sequence of steps. -/
abbrev BranchSteps (E : Nat → ResolvedBranch σ → Prop) : HttpFilterContext σ → HttpFilterContext σ → Prop :=
  ReflTransGen (BranchStep E)

section

variable {E : Nat → ResolvedBranch σ → Prop}

theorem BranchStep.log_mono {ctx ctx' : HttpFilterContext σ} (h : BranchStep E ctx ctx') : ctx.log <+: ctx'.log := by
  cases h with
  | clear | trace => exact prefix_refl _
  | evaluated | decided => exact prefix_append _ _
  | checked hE =>
    exact checkReentranceLimit_rule (P := (ctx.log <+: ·.log)) (prefix_refl _) (prefix_append _ _) (prefix_append _ _)
  | called hE hpf hf hr =>
    rw [calledInBranch_log]
    exact prefix_append _ _

theorem BranchSteps.log_mono {ctx ctx' : HttpFilterContext σ} (h : BranchSteps E ctx ctx') : ctx.log <+: ctx'.log := by
  induction h with
  | refl => exact prefix_refl _
  | tail _ hs ih => exact ih.trans hs.log_mono

theorem BranchSteps.invariant {I : HttpFilterContext σ → Prop}
    (hstep : ∀ ctx ctx', BranchStep E ctx ctx' → I ctx → I ctx') {ctx ctx' : HttpFilterContext σ}
    (h : BranchSteps E ctx ctx') (hI : I ctx) : I ctx' := by
  induction h with
  | refl => exact hI
  | tail _ hs ih => exact hstep _ _ hs ih

/-! ## The evaluator makes only these steps -/

theorem conditionsAllow_steps (pf : FilterHead σ) (ctx : HttpFilterContext σ) :
    BranchSteps E ctx (conditionsAllow pf ctx).1 := by
  unfold conditionsAllow
  split
  · exact .refl
  · exact .single (.evaluated ctx _ _)

/-- Looking for a `trace_context` filter evaluates the conditions of such filters, and nothing else. -/
theorem ensureBranchTraceContext_rule {P : HttpFilterContext σ → Prop} (htrace : ∀ ctx, P ctx → P (ensureTraceContext ctx)) :
    ∀ {fs : List (PipelineFilter σ)} {ctx : HttpFilterContext σ},
      (∀ pf ∈ fs, pf.head.filter.name = "trace_context" → ∀ ctx, P ctx →
        P (ctx.record (.evaluated pf.head.filterId pf.head.conditions))) →
      P ctx → P (ensureBranchTraceContext fs ctx)
  | [], _, _, h => h
  | pf :: rest, ctx, hrecord, h => by
    have hrest := fun p hp => hrecord p (.tail pf hp)
    rw [ensureBranchTraceContext]
    split
    · rename_i hname
      have hevaluated := hrecord pf (.head _) (eq_of_beq hname) ctx h
      dsimp only
      split
      · exact htrace _ hevaluated
      · exact ensureBranchTraceContext_rule htrace hrest hevaluated
    · exact ensureBranchTraceContext_rule htrace hrest h

theorem ensureBranchTraceContext_steps (fs : List (PipelineFilter σ)) (ctx : HttpFilterContext σ) :
    BranchSteps E ctx (ensureBranchTraceContext fs ctx) :=
  ensureBranchTraceContext_rule (P := BranchSteps E ctx) (fun _ h => h.tail (.trace _))
    (fun _ _ _ _ h => h.tail (.evaluated _ _ _)) .refl

theorem rejoinAfter_steps (b : BranchHead) (snapshot : FilterResults) (ctx : HttpFilterContext σ)
    (action : FilterAction) : BranchSteps E ctx (rejoinAfter b snapshot ctx action).1 := by
  unfold rejoinAfter
  split
  · exact .refl
  · exact .refl
  · exact .refl
  all_goals
    split
    · exact .refl
    · exact .refl
    · exact .single (.clear ctx)
    · exact .single (.clear ctx)

/-- `E` has the branches `bs` of the filter with id `host`, and the branches of every filter below. -/
structure Covers (E : Nat → ResolvedBranch σ → Prop) (host : Nat) (bs : List (ResolvedBranch σ)) : Prop where
  here : ∀ b ∈ bs, E host b
  below : ∀ pf ∈ branchSubfilters bs, ∀ b ∈ pf.branches, E pf.head.filterId b

theorem covers_branchSubfilters (host : Nat) (bs : List (ResolvedBranch σ)) :
    Covers (fun _ b => ∀ c ∈ b.filters, c ∈ branchSubfilters bs) host bs := by
  refine ⟨fun b hb c hc => subfilters_filters_subset hb (mem_subfilters hc), fun pf hpf b hb c hc => ?_⟩
  exact branchSubfilters_trans hpf (subfilters_filters_subset hb (mem_subfilters hc))

variable {bs : List (ResolvedBranch σ)} {b : ResolvedBranch σ}

theorem covers_true (host : Nat) : Covers (fun _ _ => True) host bs :=
  ⟨fun _ _ => trivial, fun _ _ _ _ => trivial⟩

theorem Covers.tail {host : Nat} (h : Covers E host (b :: bs)) : Covers E host bs :=
  ⟨fun b' hb' => h.here b' (.tail _ hb'), fun pf hpf => h.below pf (branchSubfilters_subset_cons hpf)⟩

theorem Covers.nested {host : Nat} {pf : PipelineFilter σ} (h : Covers E host bs) (hb : b ∈ bs)
    (hpf : pf ∈ subfilters b.filters) : Covers E pf.head.filterId pf.branches := by
  have hmem : pf ∈ branchSubfilters bs := subfilters_filters_subset hb hpf
  refine ⟨h.below pf hmem, fun pf' hpf' => h.below pf' ?_⟩
  exact branchSubfilters_trans hmem hpf'

theorem decideBranch_steps (host : Nat) (b : BranchHead) (hr : Option FilterResults) (ctx : HttpFilterContext σ) :
    BranchSteps E ctx (decideBranch host b hr ctx) := .single (.decided ctx _ _ _ _)

theorem checked_steps {host : Nat} {hr : Option FilterResults} {ctx ctx' : HttpFilterContext σ} {granted : Except Abort Bool}
    (hE : E host b) (hcheck : checkReentranceLimit host b.head (decideBranch host b.head hr ctx) = (ctx', granted)) :
    BranchSteps E ctx ctx' := by
  have hchecked := (decideBranch_steps (E := E) host b.head hr ctx).tail (.checked _ hE)
  rw [hcheck] at hchecked
  exact hchecked

mutual

theorem BranchesRun.steps {host : Nat} {bs : List (ResolvedBranch σ)} {hr : Option FilterResults}
    {ctx ctx' : HttpFilterContext σ} {r : Except Abort BranchOutcome} : BranchesRun host bs hr ctx ctx' r →
      Returned host ctx.log → Covers E host bs → BranchSteps E ctx ctx'
  | .nil, _, _ => .single (.clear ctx)
  | .failed h, hret, hc => h.steps hret (hc.here _ (.head _)) fun _ => hc.nested (.head _)
  | .done h, hret, hc => h.steps hret (hc.here _ (.head _)) fun _ => hc.nested (.head _)
  | .next h hrest, hret, hc => by
    have hb := h.steps hret (hc.here _ (.head _)) fun _ => hc.nested (.head _)
    exact hb.trans (hrest.steps (hret.mono hb.log_mono) hc.tail)

theorem BranchRun.steps {host : Nat} {b : ResolvedBranch σ} {hr : Option FilterResults}
    {ctx ctx' : HttpFilterContext σ} {r : Except Abort BranchFlow} (hrun : BranchRun host b hr ctx ctx' r)
    (hret : Returned host ctx.log) (hE : E host b)
    (hc : ∀ pf ∈ subfilters b.filters, Covers E pf.head.filterId pf.branches) : BranchSteps E ctx ctx' := by
  have htraced : ∀ {ctx₁}, checkReentranceLimit host b.head (decideBranch host b.head hr ctx) = (ctx₁, .ok true) →
      BranchSteps E ctx (ensureBranchTraceContext b.filters ctx₁) := fun hcheck =>
    (checked_steps hE hcheck).trans (ensureBranchTraceContext_steps b.filters _)
  match hrun with
  | .passed _ => exact decideBranch_steps host b.head hr ctx
  | .overflowed hcheck | .refused hcheck => exact checked_steps hE hcheck
  | .aborted hcheck h =>
    exact (htraced hcheck).trans (h.steps (hret.mono (htraced hcheck).log_mono) hE (Subset.refl _) hc)
  | .ran hcheck h =>
    have hchain := h.steps (hret.mono (htraced hcheck).log_mono) hE (Subset.refl _) hc
    exact ((htraced hcheck).trans hchain).trans (rejoinAfter_steps _ _ _ _)

theorem ChainRun.steps {host : Nat} {b : ResolvedBranch σ} {fs : List (PipelineFilter σ)}
    {ctx ctx' : HttpFilterContext σ} {r : Except Abort FilterAction} : ChainRun fs ctx ctx' r →
      Returned host ctx.log → E host b → fs ⊆ b.filters →
      (∀ pf ∈ subfilters fs, Covers E pf.head.filterId pf.branches) → BranchSteps E ctx ctx'
  | .nil, _, _, _, _ => .refl
  | .failed h, hret, hE, hsub, hc => h.steps hret hE (hsub (.head _)) (hc _ (mem_subfilters (.head _)))
  | .stopped h, hret, hE, hsub, hc => h.steps hret hE (hsub (.head _)) (hc _ (mem_subfilters (.head _)))
  | .next h hrest, hret, hE, hsub, hc => by
    have hp := h.steps hret hE (hsub (.head _)) (hc _ (mem_subfilters (.head _)))
    refine hp.trans (hrest.steps (hret.mono hp.log_mono) hE (fun _ hm => hsub (.tail _ hm))
      fun pf' hm => hc pf' ?_)
    rw [subfilters_cons]
    exact .tail _ (mem_append_right _ hm)

theorem FilterRun.steps {host : Nat} {b : ResolvedBranch σ} {pf : PipelineFilter σ} {ctx ctx' : HttpFilterContext σ}
    {r : Except Abort (Option FilterAction)} (hrun : FilterRun pf ctx ctx' r) (hret : Returned host ctx.log)
    (hE : E host b) (hpf : pf ∈ b.filters) (hc : Covers E pf.head.filterId pf.branches) : BranchSteps E ctx ctx' := by
  have hallow := conditionsAllow_steps (E := E) pf.head ctx
  have hcalled : ∀ {f}, pf.head.filter = .http f → BranchSteps E ctx (enterInBranch pf.head f ctx) := fun hf =>
    hallow.tail (.called _ hE hpf hf (hret.mono hallow.log_mono))
  match hrun with
  | .tcp _ => exact .refl
  | .skipped _ _ => exact hallow
  | .failed hf _ | .answered hf _ => exact hcalled hf
  | .aborted hf hout h | .branched hf hout h => exact (hcalled hf).trans (h.steps (returned_calledInBranch hout) hc)

end

variable {host : Nat} {hr : Option FilterResults} {ctx ctx' : HttpFilterContext σ}

theorem BranchesRun.log_mono {bs : List (ResolvedBranch σ)} {r : Except Abort BranchOutcome}
    (h : BranchesRun host bs hr ctx ctx' r) (hret : Returned host ctx.log) : ctx.log <+: ctx'.log :=
  (h.steps hret (covers_true _)).log_mono

theorem BranchRun.log_mono {b : ResolvedBranch σ} {r : Except Abort BranchFlow} (h : BranchRun host b hr ctx ctx' r)
    (hret : Returned host ctx.log) : ctx.log <+: ctx'.log :=
  (h.steps (E := fun _ _ => True) hret trivial fun _ _ => covers_true _).log_mono

theorem ChainRun.log_mono {fs : List (PipelineFilter σ)} {r : Except Abort FilterAction}
    (h : ChainRun fs ctx ctx' r) (hret : Returned host ctx.log) : ctx.log <+: ctx'.log :=
  (h.steps (E := fun _ _ => True) (b := .mk ⟨"", none, none, .next⟩ fs) hret trivial (Subset.refl _)
    fun _ _ => covers_true _).log_mono

theorem FilterRun.log_mono {pf : PipelineFilter σ} {r : Except Abort (Option FilterAction)} (h : FilterRun pf ctx ctx' r)
    (hret : Returned host ctx.log) : ctx.log <+: ctx'.log :=
  (h.steps (E := fun _ _ => True) (b := .mk ⟨"", none, none, .next⟩ [pf]) hret trivial (.head _)
    (covers_true _)).log_mono

end

end Praxis.Pipeline
