/-
What one pass of the request loop can do, said once, and which branch is behind the outcome of a
host's branches. The theorems about request runs are case analyses over these two.
-/
import Praxis.Pipeline.Http
import Praxis.Pipeline.Steps

namespace Praxis.Pipeline

open Function List Nat Praxis.Lib Relation

variable {σ : Type}

/-! ## Which branch decided -/

/-- The counter of a branch name. -/
def HttpFilterContext.iterations (ctx : HttpFilterContext σ) (name : String) : Nat := ctx.books.branchIterations name

variable {ctx ctx' : HttpFilterContext σ} {s : RequestState σ} {o : Except Abort BranchOutcome}
  {E : Nat → ResolvedBranch σ → Prop} {b : BranchHead} {host : Nat} {result : Except FilterError FilterAction}
  {mode : FailureMode} {f : HttpFilter σ} {pf : PipelineFilter σ} {before : Option ArcStr} {fs : List (PipelineFilter σ)}

theorem BranchStep.iterations_le (h : BranchStep E ctx ctx') (name : String) :
    ctx.iterations name ≤ ctx'.iterations name := by
  cases h with
  | @checked host b hE =>
    refine checkReentranceLimit_rule (P := (ctx.iterations name ≤ ·.iterations name)) le_rfl le_rfl ?_
    show ctx.books.branchIterations name ≤ update ctx.books.branchIterations b.head.name _ name
    by_cases hn : name = b.head.name
    · subst hn
      rw [update_self]
      exact le_succ _
    · exact le_of_eq (update_of_ne hn _ _).symm
  | called hE hpf hf hr =>
    unfold calledInBranch
    split <;> exact le_rfl
  | clear | trace | evaluated | decided => exact le_rfl

theorem BranchSteps.iterations_le {E : Nat → ResolvedBranch σ → Prop} {ctx ctx' : HttpFilterContext σ}
    (h : BranchSteps E ctx ctx') (name : String) : ctx.iterations name ≤ ctx'.iterations name := by
  induction h with
  | refl => exact le_rfl
  | tail _ hs ih => exact le_trans ih (hs.iterations_le name)

/-- What ended the loop over a host's branches: the branch's rejoin target, and for a re-entrance
a granted and counted iteration. -/
def EndedBy (b : BranchHead) (ctx ctx' : HttpFilterContext σ) : BranchOutcome → Prop
  | .proceed => False
  | .terminal => b.rejoin = .terminal
  | .skipTo t => b.rejoin = .skipTo t
  | .reEnter t => b.rejoin = .reEnter t ∧ ctx.iterations b.name < ctx'.iterations b.name ∧
      ∀ limit, b.maxIterations = some limit → ctx.iterations b.name < limit
  | .reject _ => True
  | .terminalResponse _ => True
  | .streamingTerminalResponse _ => True

theorem rejoinAfter_done {snapshot : FilterResults} {action : FilterAction} {o : BranchOutcome}
    (h : (rejoinAfter b snapshot ctx action).2 = .done o) :
    (o = .terminal ∧ b.rejoin = .terminal) ∨ (∃ t, o = .skipTo t ∧ b.rejoin = .skipTo t) ∨
      (∃ t, o = .reEnter t ∧ b.rejoin = .reEnter t) ∨ (∃ r, o = .reject r) ∨ (∃ t, o = .terminalResponse t) ∨
      ∃ t, o = .streamingTerminalResponse t := by
  unfold rejoinAfter at h
  split at h
  · cases h
    exact .inr (.inr (.inr (.inl ⟨_, rfl⟩)))
  · cases h
    exact .inr (.inr (.inr (.inr (.inl ⟨_, rfl⟩))))
  · cases h
    exact .inr (.inr (.inr (.inr (.inr ⟨_, rfl⟩))))
  all_goals
    split at h
    · cases h
    · cases h
      exact .inl ⟨rfl, by assumption⟩
    · cases h
      exact .inr (.inl ⟨_, rfl, by assumption⟩)
    · cases h
      exact .inr (.inr (.inl ⟨_, rfl, by assumption⟩))

/-- A granted re-entrance has counted one more iteration and stayed within its limit. -/
theorem checkReentranceLimit_granted {t : Nat} (hb : b.rejoin = .reEnter t)
    (h : checkReentranceLimit host b ctx = (ctx', .ok true)) :
    ctx'.iterations b.name = ctx.iterations b.name + 1 ∧
      ∀ limit, b.maxIterations = some limit → ctx.iterations b.name < limit := by
  unfold checkReentranceLimit at h
  rw [hb] at h
  dsimp only at h
  split at h
  · simp only [Prod.mk.injEq, Except.ok.injEq] at h
    obtain ⟨rfl, hall⟩ := h
    refine ⟨update_self _ _ _, fun limit hl => ?_⟩
    rw [hl] at hall
    exact of_decide_eq_true hall
  · simp at h

theorem BranchRun.endedBy {b : ResolvedBranch σ} {hr : Option FilterResults} {o : BranchOutcome}
    (hret : Returned host ctx.log) (h : BranchRun host b hr ctx ctx' (.ok (.done o))) : EndedBy b.head ctx ctx' o := by
  generalize hflow : (Except.ok (.done o) : Except Abort BranchFlow) = flow at h
  cases h with
  | passed _ | overflowed _ | refused _ | aborted _ _ => cases hflow
  | @ran _ _ _ ctx₁ ctx₂ action _ hcheck h =>
    rcases rejoinAfter_done (Except.ok.inj hflow).symm with
      ⟨rfl, hj⟩ | ⟨t, rfl, hj⟩ | ⟨t, rfl, hj⟩ | ⟨r, rfl⟩ | ⟨r, rfl⟩ | ⟨r, rfl⟩
    · exact hj
    · exact hj
    · obtain ⟨hcount, hlimit⟩ := checkReentranceLimit_granted hj hcheck
      have htraced := ensureBranchTraceContext_steps (E := fun _ _ => True) b.filters ctx₁
      have hret₁ := hret.mono (BranchSteps.log_mono ((checked_steps trivial hcheck).trans htraced))
      have hchain := htraced.trans (h.steps hret₁ trivial (Subset.refl _) fun _ _ => covers_true _)
      have hrejoined := rejoinAfter_steps (E := fun _ _ => True) b.head (hr.getD ctx.exchange.filterResults) ctx₂ action
      have hle := BranchSteps.iterations_le (hchain.trans hrejoined) b.head.name
      exact ⟨hj, lt_of_lt_of_le (hcount ▸ lt_succ_self _) hle, hlimit⟩
    · trivial
    · trivial
    · trivial

/-- The outcome of a host's branches, other than falling through, is the doing of one of them;
the branches after it did not run. -/
theorem BranchesRun.ended {host : Nat} {bs : List (ResolvedBranch σ)} {hr : Option FilterResults}
    {ctx ctx' : HttpFilterContext σ} {o : BranchOutcome} : BranchesRun host bs hr ctx ctx' (.ok o) →
      Returned host ctx.log → o ≠ .proceed →
      ∃ pre b post, bs = pre ++ b :: post ∧
        (∃ mid, (∀ name, ctx.iterations name ≤ mid.iterations name) ∧ EndedBy b.head mid ctx' o) ∧
        BranchesRun host (pre ++ [b]) hr ctx ctx' (.ok o)
  | .nil, _, ho => absurd rfl ho
  | .done h, hret, _ =>
    ⟨[], _, _, rfl, ⟨ctx, fun _ => le_rfl, h.endedBy hret⟩, .done h⟩
  | .next (b := b) h hrest, hret, ho => by
    have hs := h.steps (E := fun _ _ => True) hret trivial fun _ _ => covers_true _
    obtain ⟨pre, b', post, rfl, ⟨mid, hit, hend⟩, hrun⟩ := hrest.ended (hret.mono hs.log_mono) ho
    exact ⟨b :: pre, b', post, rfl, ⟨mid, fun name => le_trans (hs.iterations_le name) (hit name), hend⟩, .next h hrun⟩

/-! ## One pass of the request loop -/

/-- The state in which the filter at the loop's index is called: its conditions were consulted
and its pre-read results handed back. -/
def enterFilter (pf : FilterHead σ) (f : HttpFilter σ) (s : RequestState σ) : RequestState σ :=
  restorePreRead f.name { s with ctx := (conditionsAllow pf s.ctx).1 }

/-- The context right after the call of the filter at the loop's index. -/
def calledAtTop (pf : FilterHead σ) (f : HttpFilter σ) (s : RequestState σ) : HttpFilterContext σ :=
  (callOnRequest pf f (enterFilter pf f s).ctx).1

/-- Whether that call propagates a fail-closed error. -/
def failsAtTop (pf : FilterHead σ) (f : HttpFilter σ) (s : RequestState σ) : Bool :=
  propagates (callOnRequest pf f (enterFilter pf f s).ctx).2 pf.failureMode

/-- What one pass of the request loop does, by cases. -/
inductive TopPass (fs : List (PipelineFilter σ)) (s : RequestState σ) :
    Pass (RequestState σ) (RequestEnd σ) → Prop
  | finished (h : fs[s.idx]? = none) : TopPass fs s (.stop (s.ctx, .ok .proceed))
  | tcp {pf : PipelineFilter σ} {name : String} (hpf : fs[s.idx]? = some pf)
    (hf : pf.head.filter = .tcp name) : TopPass fs s (.again { s with idx := s.idx + 1 })
  | skipped {pf : PipelineFilter σ} {f : HttpFilter σ} (hpf : fs[s.idx]? = some pf)
    (hf : pf.head.filter = .http f) (hc : pf.head.conditions ≠ []) :
    TopPass fs s (.again { s with
      idx := s.idx + 1, ctx := s.ctx.record (.evaluated pf.head.filterId pf.head.conditions) })
  | failed {pf : PipelineFilter σ} {f : HttpFilter σ} (hpf : fs[s.idx]? = some pf)
    (hf : pf.head.filter = .http f) (hp : failsAtTop pf.head f s = true) (e : FilterError) :
    TopPass fs s (.stop (calledAtTop pf.head f s, .error (.filter e)))
  | answered {pf : PipelineFilter σ} {f : HttpFilter σ} (hpf : fs[s.idx]? = some pf)
    (hf : pf.head.filter = .http f) (hp : failsAtTop pf.head f s = false) {action : FilterAction}
    (ha : action ≠ .proceed) : TopPass fs s (.stop (markTopLevel (calledAtTop pf.head f s) s.idx, .ok action))
  | branched {pf : PipelineFilter σ} {f : HttpFilter σ} (hpf : fs[s.idx]? = some pf)
    (hf : pf.head.filter = .http f) (hp : failsAtTop pf.head f s = false) {ctx' : HttpFilterContext σ}
    {o : Except Abort BranchOutcome}
    (hrun : BranchesRun pf.head.filterId pf.branches none (markTopLevel (calledAtTop pf.head f s) s.idx) ctx' o) :
    TopPass fs s (afterBranches (enterFilter pf.head f s)
      ((calledAtTop pf.head f s).exchange.upstream.map (·.address)) (ctx', o))

theorem requestOutcome_error {e : FilterError} (h : requestOutcome result mode = .error e) :
    propagates result mode = true := by
  cases result with
  | ok a => cases a <;> cases h
  | error e' =>
    cases mode with
    | closed => rfl
    | «open» => cases h

theorem requestOutcome_ok {o : HeaderFilterOutcome} (h : requestOutcome result mode = .ok o) :
    propagates result mode = false := by
  cases result with
  | ok a => rfl
  | error e' =>
    cases mode with
    | closed => cases h
    | «open» => rfl

@[simp] theorem enterFilter_idx {pf : FilterHead σ} : (enterFilter pf f s).idx = s.idx := by
  unfold enterFilter restorePreRead
  split <;> rfl

@[simp] theorem enterFilter_log (pf : FilterHead σ) (f : HttpFilter σ) (s : RequestState σ) :
    (enterFilter pf f s).ctx.log = (conditionsAllow pf s.ctx).1.log := by
  unfold enterFilter restorePreRead
  split <;> rfl

@[simp] theorem enterFilter_books {pf : FilterHead σ} : (enterFilter pf f s).ctx.books = s.ctx.books := by
  unfold enterFilter restorePreRead conditionsAllow
  split <;> split <;> rfl

@[simp] theorem markTopLevel_log (idx : Nat) : (markTopLevel ctx idx).log = ctx.log := rfl

theorem conditionsAllow_log {pf : FilterHead σ} :
    (conditionsAllow pf ctx).1.log = ctx.log ++
      (if pf.conditions.isEmpty then [] else [.evaluated pf.filterId pf.conditions]) := by
  unfold conditionsAllow
  split
  · exact (append_nil _).symm
  · rfl

theorem calledAtTop_log {pf : FilterHead σ} :
    (calledAtTop pf f s).log = s.ctx.log ++
      (if pf.conditions.isEmpty then [] else [.evaluated pf.filterId pf.conditions]) ++
      [callEvent pf f (enterFilter pf f s).ctx] := by
  rw [calledAtTop, callOnRequest_log, enterFilter_log, conditionsAllow_log]

theorem calledAtTop_iterations (pf : FilterHead σ) (f : HttpFilter σ) (s : RequestState σ) (name : String) :
    (calledAtTop pf f s).iterations name = s.ctx.iterations name := by
  rw [HttpFilterContext.iterations, calledAtTop, callOnRequest_books, enterFilter_books]
  rfl

theorem returned_calledAtTop {pf : FilterHead σ} (h : failsAtTop pf f s = false) :
    Returned pf.filterId (calledAtTop pf f s).log :=
  returned_callOnRequest h

theorem branched_steps (hp : failsAtTop pf.head f s = false) (hc : Covers E pf.head.filterId pf.branches)
    (hrun : BranchesRun pf.head.filterId pf.branches none (markTopLevel (calledAtTop pf.head f s) s.idx) ctx' o) :
    BranchSteps E (markTopLevel (calledAtTop pf.head f s) s.idx) ctx' := hrun.steps (returned_calledAtTop hp) hc

/-- The loop goes on after the branches by falling through or by a jump. -/
theorem afterBranches_again {s' : RequestState σ} (h : afterBranches s before (ctx, o) = .again s') :
    s'.ctx = ctx ∧ s'.preRead = s.preRead ∧ ((o = .ok .proceed ∧ s'.idx = s.idx + 1) ∨
      (∃ t, o = .ok (.skipTo t) ∧ s'.idx = t) ∨ ∃ t, o = .ok (.reEnter t) ∧ s'.idx = t) := by
  unfold afterBranches at h
  split at h
  · cases h
  · rename_i ctx' heq
    cases h
    cases heq
    exact ⟨rfl, rfl, .inl ⟨rfl, rfl⟩⟩
  · split at h <;> cases h
  · rename_i ctx' t heq
    cases h
    cases heq
    exact ⟨rfl, rfl, .inr (.inl ⟨t, rfl, rfl⟩)⟩
  · rename_i ctx' t heq
    cases h
    cases heq
    exact ⟨rfl, rfl, .inr (.inr ⟨t, rfl, rfl⟩)⟩
  · cases h
  · cases h
  · cases h

/-- The loop stops after the branches in their final context; it forwards only when a terminal
branch selected an upstream. -/
theorem afterBranches_stop {r : Except Abort FilterAction} (h : afterBranches s before (ctx, o) = .stop (ctx', r)) :
    ctx' = ctx ∧ (r = .ok .proceed → o = .ok .terminal ∧ branchSelectedUpstream before ctx = true) := by
  unfold afterBranches at h
  split at h
  · rename_i ctx₁ e heq
    cases h
    cases heq
    exact ⟨rfl, nofun⟩
  · cases h
  · rename_i ctx₁ heq
    cases heq
    split at h
    · cases h
      exact ⟨rfl, fun _ => ⟨rfl, by assumption⟩⟩
    · cases h
      exact ⟨rfl, nofun⟩
  · cases h
  · cases h
  all_goals
    rename_i ctx₁ x heq
    cases h
    cases heq
    exact ⟨rfl, nofun⟩

/-- The context a pass ends in. -/
def passCtx : Pass (RequestState σ) (RequestEnd σ) → HttpFilterContext σ
  | .again s => s.ctx
  | .stop r => r.1

@[simp] theorem passCtx_afterBranches : passCtx (afterBranches s before (ctx, o)) = ctx := by
  cases hp : afterBranches s before (ctx, o) with
  | again s' => exact (afterBranches_again hp).1
  | stop r => exact (afterBranches_stop hp).1

theorem requestPass_cases (fs : List (PipelineFilter σ)) (s : RequestState σ) : TopPass fs s (requestPass fs s) := by
  unfold requestPass
  split
  · exact .finished (by assumption)
  rename_i pf hpf
  split
  · exact .tcp hpf (by assumption)
  rename_i f hf
  split
  · rename_i ctx heq
    unfold conditionsAllow at heq
    split at heq
    · cases heq
    · rename_i hne
      obtain ⟨rfl, -⟩ := Prod.mk.inj heq
      exact .skipped hpf hf fun hnil => hne (by rw [hnil]; rfl)
  · rename_i ctx heq
    have henter : restorePreRead f.name { s with ctx := ctx } = enterFilter pf.head f s := by
      rw [enterFilter, heq]
    rw [henter]
    unfold afterOnRequest
    dsimp only
    split
    · exact .failed hpf hf (requestOutcome_error (by assumption)) _
    case h_5 hout =>
      rw [evaluateBranches_eq, enterFilter_idx]
      exact .branched hpf hf (requestOutcome_ok hout) (evaluateBranchesInner_run _ _ _ _ rfl)
    all_goals
      rename_i hout
      rw [enterFilter_idx]
      exact .answered hpf hf (requestOutcome_ok hout) (by simp)

theorem TopPass.log_mono {fs : List (PipelineFilter σ)} {s : RequestState σ}
    {r : Pass (RequestState σ) (RequestEnd σ)} (h : TopPass fs s r) : s.ctx.log <+: (passCtx r).log := by
  have hcall : ∀ (pf : FilterHead σ) (f : HttpFilter σ), s.ctx.log <+: (calledAtTop pf f s).log := fun pf f => by
    rw [calledAtTop_log, append_assoc]
    exact prefix_append _ _
  cases h with
  | finished _ | tcp _ _ => exact prefix_refl _
  | skipped _ _ _ => exact prefix_append _ _
  | failed _ _ _ _ | answered _ _ _ _ => exact hcall _ _
  | branched hpf hf hfail hrun =>
    rw [passCtx_afterBranches]
    exact (hcall _ _).trans (branched_steps hfail (covers_true _) hrun).log_mono

/-! ## Invariants of the request phase -/

theorem enablesTracePropagation_rule {P : HttpFilterContext σ → Prop} : ∀ {fs : List (PipelineFilter σ)}
    {ctx : HttpFilterContext σ}, (∀ pf ∈ fs, pf.head.filter.name = "trace_context" → ∀ ctx, P ctx →
      P (ctx.record (.evaluated pf.head.filterId pf.head.conditions))) → P ctx → P (enablesTracePropagation fs ctx).1
  | [], _, _, h => h
  | pf :: rest, ctx, hrecord, h => by
    have hrest := fun p hp => hrecord p (.tail pf hp)
    rw [enablesTracePropagation]
    split
    · rename_i hname
      have hevaluated := hrecord pf (.head _) (eq_of_beq hname) ctx h
      dsimp only
      split
      · exact hevaluated
      · exact enablesTracePropagation_rule hrest hevaluated
    · exact enablesTracePropagation_rule hrest h

/-- Neither a call of a filter nor a check of an iteration limit. -/
def Event.isQuiet : Event → Bool
  | .evaluated .. | .decided .. => true
  | _ => false

/-- What the executor does between the calls and the checks leaves what only those write. -/
structure Quiet (ctx ctx' : HttpFilterContext σ) : Prop where
  request : ctx'.exchange.request = ctx.exchange.request
  cluster : ctx'.exchange.cluster = ctx.exchange.cluster
  upstream : ctx'.exchange.upstream = ctx.exchange.upstream
  selected : ctx'.exchange.selected = ctx.exchange.selected
  world : ctx'.exchange.world = ctx.exchange.world
  iterations : ctx'.books.branchIterations = ctx.books.branchIterations
  log : ∃ added, ctx'.log = ctx.log ++ added ∧ ∀ e ∈ added, e.isQuiet = true

theorem quiet_nil (log : List Event) : ∃ added, log = log ++ added ∧ ∀ e ∈ added, e.isQuiet = true :=
  ⟨[], (append_nil log).symm, fun _ h => absurd h not_mem_nil⟩

theorem Quiet.trans {ctx ctx' ctx'' : HttpFilterContext σ} (h : Quiet ctx ctx') (h' : Quiet ctx' ctx'') : Quiet ctx ctx'' := by
  obtain ⟨added, hlog, hquiet⟩ := h.log
  obtain ⟨added', hlog', hquiet'⟩ := h'.log
  exact ⟨h'.request.trans h.request, h'.cluster.trans h.cluster, h'.upstream.trans h.upstream, h'.selected.trans h.selected,
    h'.world.trans h.world, h'.iterations.trans h.iterations, added ++ added', by rw [hlog', hlog, append_assoc],
    fun e he => (mem_append.1 he).elim (hquiet e) (hquiet' e)⟩

theorem quiet_record (ctx : HttpFilterContext σ) {e : Event} (he : e.isQuiet = true) : Quiet ctx (ctx.record e) :=
  ⟨rfl, rfl, rfl, rfl, rfl, rfl, [e], rfl, fun _ h => mem_singleton.1 h ▸ he⟩

theorem quiet_enterFilter {pf : FilterHead σ} (s : RequestState σ) : Quiet s.ctx (enterFilter pf f s).ctx := by
  have hallowed : Quiet s.ctx (conditionsAllow pf s.ctx).1 := by
    unfold conditionsAllow
    split
    · exact ⟨rfl, rfl, rfl, rfl, rfl, rfl, quiet_nil _⟩
    · exact quiet_record _ rfl
  refine hallowed.trans ?_
  unfold enterFilter restorePreRead
  split <;> exact ⟨rfl, rfl, rfl, rfl, rfl, rfl, quiet_nil _⟩

theorem quiet_requestStart (fs : List (PipelineFilter σ)) (ctx : HttpFilterContext σ) :
    Quiet ctx (requestStart fs ctx).ctx := by
  have htraced : Quiet ctx (enablesTracePropagation fs ctx).1 := enablesTracePropagation_rule (P := Quiet ctx)
    (fun _ _ _ ctx' h => h.trans (quiet_record ctx' rfl)) ⟨rfl, rfl, rfl, rfl, rfl, rfl, quiet_nil _⟩
  refine htraced.trans ?_
  unfold requestStart
  dsimp only
  split <;> exact ⟨rfl, rfl, rfl, rfl, rfl, rfl, quiet_nil _⟩

/-- `b` is a branch of the filter of the tree with id `host`. -/
def BranchOf (fs : List (PipelineFilter σ)) (host : Nat) (b : ResolvedBranch σ) : Prop :=
  ∃ q ∈ subfilters fs, q.head.filterId = host ∧ b ∈ q.branches

theorem covers_branchOf (hpf : pf ∈ subfilters fs) : Covers (BranchOf fs) pf.head.filterId pf.branches :=
  ⟨fun _ hb => ⟨pf, hpf, rfl, hb⟩, fun q hq _ hb => ⟨q, subfilters_trans hpf hq, rfl, hb⟩⟩

section

variable {fs : List (PipelineFilter σ)} {I : HttpFilterContext σ → Prop} (hquiet : ∀ ctx ctx', Quiet ctx ctx' → I ctx → I ctx')
  (hcall : ∀ pf ∈ subfilters fs, ∀ f, pf.head.filter = .http f → ∀ ctx, I ctx → I (callOnRequest pf.head f ctx).1)
  (hcheck : ∀ host b, BranchOf fs host b → ∀ ctx, I ctx → I (checkReentranceLimit host b.head ctx).1)

include hquiet hcall hcheck

theorem BranchStep.rule (hs : BranchStep (BranchOf fs) ctx ctx') (hI : I ctx) : I ctx' := by
  cases hs with
  | clear | trace => exact hquiet ctx _ ⟨rfl, rfl, rfl, rfl, rfl, rfl, quiet_nil _⟩ hI
  | evaluated | decided => exact hquiet _ _ (quiet_record _ rfl) hI
  | checked hE => exact hcheck _ _ hE ctx hI
  | called hE hpf hf hr =>
    obtain ⟨q, hq, -, hb⟩ := hE
    have hmem := subfilters_trans hq (subfilters_filters_subset hb (mem_subfilters hpf))
    refine hquiet _ _ ?_ (hcall _ hmem _ hf ctx hI)
    unfold calledInBranch
    split <;> exact ⟨rfl, rfl, rfl, rfl, rfl, rfl, quiet_nil _⟩

theorem TopPass.rule {s : RequestState σ} {p : Pass (RequestState σ) (RequestEnd σ)} (hp : TopPass fs s p) (hI : I s.ctx) :
    I (passCtx p) := by
  have hcalled : ∀ {pf : PipelineFilter σ} {f : HttpFilter σ}, fs[s.idx]? = some pf → pf.head.filter = .http f →
      I (calledAtTop pf.head f s) := fun hpf hf =>
    hcall _ (mem_subfilters (mem_of_getElem? hpf)) _ hf _ (hquiet _ _ (quiet_enterFilter s) hI)
  have hmarked : ∀ ctx, I ctx → I (markTopLevel ctx s.idx) := fun ctx =>
    hquiet ctx _ ⟨rfl, rfl, rfl, rfl, rfl, rfl, quiet_nil _⟩
  cases hp with
  | finished | tcp => exact hI
  | skipped _ _ _ => exact hquiet _ _ (quiet_record _ rfl) hI
  | failed hpf hf _ _ => exact hcalled hpf hf
  | answered hpf hf _ _ => exact hmarked _ (hcalled hpf hf)
  | branched hpf hf hfail hrun =>
    rw [passCtx_afterBranches]
    exact (branched_steps hfail (covers_branchOf (mem_subfilters (mem_of_getElem? hpf))) hrun).invariant
      (fun _ _ hs hI => BranchStep.rule hquiet hcall hcheck hs hI) (hmarked _ (hcalled hpf hf))

/-- The invariant rule of the request phase: what the calls of filters and the checks of iteration limits
keep, and whatever else the executor does, holds afterwards. -/
theorem executeHttpRequest_rule {fuel : Nat} {r : RequestEnd σ} (hI : I ctx)
    (hrun : executeHttpRequest fs fuel ctx = some r) : I r.1 := by
  have hstep : ∀ s p, I s.ctx → requestPass fs s = p → I (passCtx p) := fun s p hI hpass =>
    (hpass ▸ requestPass_cases fs s).rule hquiet hcall hcheck hI
  exact loop_inv (I := fun s : RequestState σ => I s.ctx) (Q := fun r : RequestEnd σ => I r.1)
    (fun s _ hI hpass => hstep s _ hI hpass) (fun s _ hI hpass => hstep s _ hI hpass)
    (hquiet _ _ (quiet_requestStart fs ctx) hI) hrun

end

/-- What only filters write is as it was, and the log has grown. -/
structure Undisturbed (ctx ctx' : HttpFilterContext σ) : Prop where
  request : ctx'.exchange.request = ctx.exchange.request
  cluster : ctx'.exchange.cluster = ctx.exchange.cluster
  upstream : ctx'.exchange.upstream = ctx.exchange.upstream
  selected : ctx'.exchange.selected = ctx.exchange.selected
  world : ctx'.exchange.world = ctx.exchange.world
  log : ctx.log <+: ctx'.log

theorem Quiet.undisturbed (h : Quiet ctx ctx') : Undisturbed ctx ctx' := by
  obtain ⟨added, hlog, -⟩ := h.log
  exact ⟨h.request, h.cluster, h.upstream, h.selected, h.world, added, hlog.symm⟩

theorem undisturbed_checkReentranceLimit (host : Nat) (b : BranchHead) (ctx : HttpFilterContext σ) :
    Undisturbed ctx (checkReentranceLimit host b ctx).1 :=
  checkReentranceLimit_rule (P := Undisturbed ctx) ⟨rfl, rfl, rfl, rfl, rfl, prefix_refl _⟩
    ⟨rfl, rfl, rfl, rfl, rfl, prefix_append _ _⟩ ⟨rfl, rfl, rfl, rfl, rfl, prefix_append _ _⟩

/-- A property that says nothing of what the executor writes, and that every call of a filter keeps, holds
after a request phase if it held before. -/
theorem executeHttpRequest_invariant {I : HttpFilterContext σ → Prop}
    (hquiet : ∀ ctx ctx', Undisturbed ctx ctx' → I ctx → I ctx')
    (hcall : ∀ pf ∈ subfilters fs, ∀ f, pf.head.filter = .http f → ∀ ctx, I ctx → I (callOnRequest pf.head f ctx).1)
    {fuel : Nat} {r : RequestEnd σ} (hI : I ctx) (hrun : executeHttpRequest fs fuel ctx = some r) : I r.1 :=
  executeHttpRequest_rule (fun _ _ h => hquiet _ _ h.undisturbed) hcall
    (fun host b _ ctx => hquiet _ _ (undisturbed_checkReentranceLimit host b.head ctx)) hI hrun

end Praxis.Pipeline
