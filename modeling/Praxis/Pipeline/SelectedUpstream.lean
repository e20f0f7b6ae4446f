/-
The selected-upstream ordering check is sound: the state it computes for a program point
describes every context in which the executor gets there. A `false` state promises that a load
balancer was called; the check then has nothing to flag, and where it flags nothing every gated
filter has its conditions evaluated after such a call.

The check gives up on the siblings after an unconditional re-entrance inside a branch. The
executor does not: once the iteration limit is reached it refuses the re-entrance and goes on
with the siblings. The theorem is about runs in which that does not happen.
-/
import Praxis.Lib.Trace
import Praxis.Pipeline.Ordering
import Praxis.Pipeline.Passes
import Praxis.Pipeline.Resolved

namespace Praxis.Pipeline

open HttpFilterContext List Option Bool Praxis.Lib Relation

variable {σ κ : Type}

/-! ## What a state promises -/

/-- The evaluation of conditions that look at the selected upstream. -/
def Event.gated : Event → Bool
  | .evaluated _ conditions => conditions.any (·.matcher.selectedUpstream.isSome)
  | _ => false

def Event.callsLoadBalancer : Event → Bool
  | .called _ name _ _ _ => name == "load_balancer"
  | _ => false

def LbCalled (log : List Event) : Prop := ∃ e ∈ log, e.callsLoadBalancer = true

variable {log : List Event} {ctx : HttpFilterContext σ} {b : Bool} {bs : List (ResolvedBranch σ)}
  {log' : List Event} {ctx' : HttpFilterContext σ} {pf : FilterHead σ} {noLb carry exit : Bool}

theorem LbCalled.mono (h : LbCalled log) (hp : log <+: log') : LbCalled log' := by
  obtain ⟨e, he, hlb⟩ := h
  exact ⟨e, hp.subset he, hlb⟩

/-- Every gated evaluation in the log has a call of a load balancer before it. -/
def GatedAfterLb (log : List Event) : Prop := Throughout (fun pre e => e.gated = true → LbCalled pre) log

/-- The state `noLb` of the analysis describes a context. -/
structure At (ctx : HttpFilterContext σ) (noLb : Bool) : Prop where
  gated : GatedAfterLb ctx.log
  lb : noLb = false → LbCalled ctx.log

theorem At.weaken {b' : Bool} (h : At ctx b) (hb : b = true → b' = true) : At ctx b' := by
  refine ⟨h.gated, fun hf => h.lb ?_⟩
  cases b with
  | false => rfl
  | true => rw [hb rfl] at hf; cases hf

theorem At.top (h : At ctx b) : At ctx true := h.weaken fun _ => rfl

theorem At.congr (h : At ctx b) (hlog : ctx'.log = ctx.log) : At ctx' b := ⟨hlog ▸ h.gated, fun hf => hlog ▸ h.lb hf⟩

/-- Recording an event keeps the state, if the event is not gated or a load balancer was called. -/
theorem At.concat {ctx ctx' : HttpFilterContext σ} {b : Bool} {e : Event} (h : At ctx b)
    (hlog : ctx'.log = ctx.log ++ [e]) (he : e.gated = true → b = false) : At ctx' b := by
  refine ⟨?_, fun hf => ?_⟩
  · rw [hlog]
    exact h.gated.concat fun hg => h.lb (he hg)
  · rw [hlog]
    exact (h.lb hf).mono (prefix_append _ _)

/-- After a call the state is the one the analysis enters the branches with. -/
theorem At.called {f : HttpFilter σ} (hf : pf.filter = .http f) (h : At ctx b)
    (hlog : ctx'.log = ctx.log ++ [callEvent pf f ctx]) : At ctx' (b && !isLoadBalancer pf) := by
  have hname : isLoadBalancer pf = (f.name == "load_balancer") := by rw [isLoadBalancer, hf]; rfl
  cases hlb : isLoadBalancer pf with
  | false =>
    rw [Bool.not_false, Bool.and_true]
    exact h.concat hlog fun hg => by cases hg
  | true =>
    refine ⟨?_, fun _ => ⟨callEvent pf f ctx, ?_, hname.symm.trans hlb⟩⟩
    · rw [hlog]
      exact h.gated.concat fun hg => by cases hg
    · rw [hlog]
      exact List.mem_append_right _ (List.mem_singleton.2 rfl)

section

variable {ctx : HttpFilterContext σ} {pf : FilterHead σ} {b : Bool} (h : At ctx b)
  (hflag : flagIfGated pf b = [])
include h hflag

theorem At.evaluated : At (ctx.record (.evaluated pf.filterId pf.conditions)) b := by
  refine h.concat rfl fun hg => ?_
  cases b with
  | false => rfl
  | true =>
    have hgated : filterHasSelectedUpstreamCondition pf = true := hg
    rw [flagIfGated, hgated] at hflag
    cases hflag

theorem At.conditionsAllow : At (Praxis.Pipeline.conditionsAllow pf ctx).1 b := by
  unfold Praxis.Pipeline.conditionsAllow
  split
  · exact h
  · exact h.evaluated hflag

end

theorem conditions_of_skipped (h : (Praxis.Pipeline.conditionsAllow pf ctx).2 = false) : pf.conditions.isEmpty = false := by
  unfold Praxis.Pipeline.conditionsAllow at h
  split at h
  · cases h
  · exact eq_false_iff.2 (by assumption)

/-! ## Branch sub-chains -/

/-- No unconditional re-entrance of a host inside a branch was refused: whenever the limit was
consulted, the counter was below it. `tops` are the ids of the top-level filters. -/
def NestedReEntersGranted (tops : List Nat) (log : List Event) : Prop :=
  ∀ host b count, Event.counted host b count ∈ log → host ∉ tops → b.condition = none →
    ∀ limit, b.maxIterations = some limit → count < limit

theorem NestedReEntersGranted.anti {tops : List Nat} (h : NestedReEntersGranted tops log') (hp : log <+: log') :
    NestedReEntersGranted tops log :=
  fun host b count hm => h host b count (hp.subset hm)

/-- What the analysis takes for granted of a filter inside a branch. -/
structure Analysable (tops : List Nat) (pf : PipelineFilter σ) : Prop where
  trace : pf.head.filter.name = "trace_context" → filterHasSelectedUpstreamCondition pf.head = false
  tcp : pf.head.filter.isHttp = false → pf.branches = [] ∧ isLoadBalancer pf.head = false
  nested : pf.head.filterId ∉ tops

/-- How the evaluation of one branch leaves its host, for a branch entered in state `noLb` whose
chain the analysis leaves in state `out`. -/
inductive BranchExit (host : Nat) (b : BranchHead) (noLb out : Bool) (ctx : HttpFilterContext σ) :
    Except Abort BranchFlow → Prop
  | passed {hr : Option FilterResults} (h : At ctx noLb)
    (hc : b.condition = none → ∃ t count limit, b.rejoin = .reEnter t ∧ b.maxIterations = some limit ∧
      limit ≤ count ∧ Event.counted host b count ∈ ctx.log) : BranchExit host b noLb out ctx (.ok (.next hr))
  | through {hr : Option FilterResults} (h : At ctx out) (hj : b.rejoin = .next) :
    BranchExit host b noLb out ctx (.ok (.next hr))
  | skipped {t : Nat} (h : At ctx out) (hj : b.rejoin = .skipTo t) :
    BranchExit host b noLb out ctx (.ok (.done (.skipTo t)))
  | reEntered {t : Nat} (h : At ctx out) (hj : b.rejoin = .reEnter t) :
    BranchExit host b noLb out ctx (.ok (.done (.reEnter t)))
  | ended {o : BranchOutcome} (h : At ctx true) (ho : mapNestedOutcome o ≠ none) :
    BranchExit host b noLb out ctx (.ok (.done o))
  | failed {e : Abort} (h : At ctx true) : BranchExit host b noLb out ctx (.error e)

theorem rejoinAfter_exit {host : Nat} {b : BranchHead} {out : Bool} {snapshot : FilterResults} {action : FilterAction}
    (hall : At ctx true) (hout : action.stops = false → At ctx out) :
    BranchExit host b noLb out (rejoinAfter b snapshot ctx action).1 (.ok (rejoinAfter b snapshot ctx action).2) := by
  unfold rejoinAfter
  split
  any_goals exact .ended hall (by rintro ⟨⟩)
  all_goals
    split
    · exact .through (hout rfl) (by assumption)
    · exact .ended hall (by rintro ⟨⟩)
    · exact .skipped ((hout rfl).congr rfl) (by assumption)
    · exact .reEntered ((hout rfl).congr rfl) (by assumption)

/-- The limit check: it ends the phase, grants, or refuses a re-entrance that is used up. -/
theorem checkReentranceLimit_exit (host : Nat) (b : BranchHead) (h : At ctx noLb) :
    At (checkReentranceLimit host b ctx).1 noLb ∧
      ((checkReentranceLimit host b ctx).2 = .ok false → ∃ t count limit, b.rejoin = .reEnter t ∧
        b.maxIterations = some limit ∧ limit ≤ count ∧
        Event.counted host b count ∈ (checkReentranceLimit host b ctx).1.log) := by
  unfold checkReentranceLimit
  split
  · rename_i t hj
    dsimp only
    split
    · refine ⟨h.concat rfl nofun, fun hrefused => ?_⟩
      have hall := Except.ok.inj hrefused
      cases hmax : b.maxIterations with
      | none => rw [hmax] at hall; cases hall
      | some limit =>
        rw [hmax] at hall
        have hlt : ¬ ctx.books.branchIterations b.name + 1 ≤ limit := of_decide_eq_false hall
        exact ⟨t, _, limit, hj, rfl, by omega, mem_append_right _ (mem_singleton.2 rfl)⟩
    · exact ⟨h.concat rfl nofun, nofun⟩
  · exact ⟨h, nofun⟩

theorem At.ungated (hun : filterHasSelectedUpstreamCondition pf = false) (h : At ctx b) :
    At (ctx.record (.evaluated pf.filterId pf.conditions)) b :=
  h.evaluated (by rw [flagIfGated, hun, Bool.and_false]; rfl)

/-- A nested exit that is open stays open. -/
theorem nestedBranchesExit_exit : ∀ (bs : List (ResolvedBranch σ)) (carry : Bool), (nestedBranchesExit bs carry true).1 = true
  | [], carry => by rw [nestedBranchesExit]; rfl
  | b :: bs, carry => by
    rw [nestedBranchesExit]
    dsimp only
    split
    · exact nestedBranchesExit_exit bs _
    · split
      · rfl
      · exact nestedBranchesExit_exit bs _
    all_goals
      split
      · rfl
      · exact nestedBranchesExit_exit bs _

/-- The errors of a branch's chain are among the errors of its host. -/
theorem nestedBranchesExit_chain {b : ResolvedBranch σ} (h : (nestedBranchesExit (b :: bs) carry exit).2 = []) :
    (nestedBranchNoLb b carry).2 = [] := by
  rw [nestedBranchesExit] at h
  dsimp only at h
  split at h
  · exact (append_eq_nil_iff.1 h).1
  all_goals
    split at h
    · exact h
    · exact (append_eq_nil_iff.1 h).1

/-- A jump out of the host leaves in the state of its chain. -/
theorem nestedBranchesExit_jump {b : ResolvedBranch σ} {t : Nat} (hj : b.head.rejoin = .skipTo t ∨ b.head.rejoin = .reEnter t)
    (hc : (nestedBranchNoLb b carry).1 = true) : (nestedBranchesExit (b :: bs) carry exit).1 = true := by
  rw [nestedBranchesExit]
  dsimp only
  rw [hc, Bool.or_true]
  rcases hj with hj | hj
  all_goals
    rw [hj]
    dsimp only
    split
    · rfl
    · exact nestedBranchesExit_exit bs carry

/-- The analysis goes on with the siblings after a branch that may be passed or falls through. -/
theorem nestedBranchesExit_next {b : ResolvedBranch σ} (carry exit : Bool)
    (hb : b.head.condition ≠ none ∨ b.head.rejoin = .next) : ∃ carry' exit',
      (nestedBranchesExit (b :: bs) carry exit).1 = (nestedBranchesExit bs carry' exit').1 ∧
      ((nestedBranchesExit (b :: bs) carry exit).2 = [] → (nestedBranchesExit bs carry' exit').2 = []) ∧
      (b.head.condition ≠ none → carry = true → carry' = true) ∧
      (b.head.rejoin = .next → (nestedBranchNoLb b carry).1 = true → carry' = true) := by
  rw [nestedBranchesExit]
  dsimp only
  have hcond : b.head.condition ≠ none → b.head.condition.isNone = false := fun h => by simpa [isSome_iff_ne_none] using h
  cases hj : b.head.rejoin with
  | next =>
    dsimp only
    refine ⟨_, _, rfl, fun h => (append_eq_nil_iff.1 h).2, fun hne hc => ?_, fun _ hc => ?_⟩
    · rw [hcond hne, hc]
      exact or_true _
    · rw [hc]
      split <;> rfl
  | terminal | skipTo t | reEnter t =>
    have hne := hb.resolve_right (by rw [hj]; nofun)
    rw [hcond hne]
    dsimp only
    exact ⟨_, _, rfl, fun h => (append_eq_nil_iff.1 h).2, fun _ hc => hc, nofun⟩

theorem nestedFilterNoLb_eq {pf : PipelineFilter σ} (noLb : Bool) : nestedFilterNoLb pf noLb =
    ((noLb && !pf.head.conditions.isEmpty) || (nestedBranchesExit pf.branches (noLb && !isLoadBalancer pf.head) false).1,
      flagIfGated pf.head noLb ++ (nestedBranchesExit pf.branches (noLb && !isLoadBalancer pf.head) false).2) := by
  cases pf
  rw [nestedFilterNoLb]
  rfl

theorem nestedBranchNoLb_eq {b : ResolvedBranch σ} (noLb : Bool) :
    nestedBranchNoLb b noLb = nestedChainNoLb b.filters noLb := by
  cases b
  rw [nestedBranchNoLb]
  rfl

section

variable {tops : List Nat}

mutual

/-- The branches of a host inside a branch: where the enclosing chain goes on, it goes on in the
state the analysis exits with. -/
theorem BranchesRun.located {bs : List (ResolvedBranch σ)} {host : Nat} {hr : Option FilterResults}
    {ctx ctx' : HttpFilterContext σ} {r : Except Abort BranchOutcome} {carry exit : Bool} :
    BranchesRun host bs hr ctx ctx' r → Returned host ctx.log → host ∉ tops →
      (∀ pf ∈ branchSubfilters bs, Analysable tops pf) → (nestedBranchesExit bs carry exit).2 = [] →
      At ctx carry → NestedReEntersGranted tops ctx'.log →
      At ctx' true ∧ ∀ o, r = .ok o → mapNestedOutcome o = none → At ctx' (nestedBranchesExit bs carry exit).1
  | .nil, _, _, _, _, hat, _ => by
    rw [nestedBranchesExit]
    have hclear : At (clearFilterResults ctx) carry := hat.congr rfl
    exact ⟨hclear.top, fun _ _ _ => hclear.weaken fun hc => by rw [hc]; exact or_true _⟩
  | .failed hb, hret, _, hana, herr, hat, hgr => by
    cases hb.exit hret (fun pf hpf => hana pf (subfilters_filters_subset (.head _) hpf))
      (nestedBranchesExit_chain herr) hat hgr with
    | failed h => exact ⟨h, nofun⟩
  | .done hb, hret, _, hana, herr, hat, hgr => by
    cases hb.exit hret (fun pf hpf => hana pf (subfilters_filters_subset (.head _) hpf))
      (nestedBranchesExit_chain herr) hat hgr with
    | skipped h hj => exact ⟨h.top, fun _ _ _ => h.weaken (nestedBranchesExit_jump (.inl hj))⟩
    | reEntered h hj => exact ⟨h.top, fun _ _ _ => h.weaken (nestedBranchesExit_jump (.inr hj))⟩
    | ended h ho =>
      refine ⟨h, fun o' ho' hnone => absurd hnone ?_⟩
      cases ho'
      exact ho
  | .next (b := b) hb hrest, hret, hhost, hana, herr, hat, hgr => by
    have hret₁ := hret.mono (hb.log_mono hret)
    have hana₂ := fun pf hpf => hana pf (branchSubfilters_subset_cons hpf)
    have hmono := hrest.log_mono hret₁
    cases hb.exit hret (fun pf hpf => hana pf (subfilters_filters_subset (.head _) hpf))
      (nestedBranchesExit_chain herr) hat (hgr.anti hmono) with
    | passed h hc =>
      -- a branch that did not run is conditional: its re-entrance was not refused
      have hcond : b.head.condition ≠ none := by
        intro hnone
        obtain ⟨t, count, limit, -, hmax, hle, hm⟩ := hc hnone
        have := hgr host b.head count (hmono.subset hm) hhost hnone limit hmax
        omega
      obtain ⟨carry', exit', hout, herr', hcarry, -⟩ := nestedBranchesExit_next carry exit (.inl hcond)
      rw [hout]
      exact hrest.located hret₁ hhost hana₂ (herr' herr) (h.weaken (hcarry hcond)) hgr
    | through h hj =>
      obtain ⟨carry', exit', hout, herr', -, hcarry⟩ := nestedBranchesExit_next carry exit (.inr hj)
      rw [hout]
      exact hrest.located hret₁ hhost hana₂ (herr' herr) (h.weaken (hcarry hj)) hgr

theorem BranchRun.exit {b : ResolvedBranch σ} {host : Nat} {hr : Option FilterResults} {ctx ctx' : HttpFilterContext σ}
    {flow : Except Abort BranchFlow} {noLb : Bool} (hrun : BranchRun host b hr ctx ctx' flow)
    (hret : Returned host ctx.log) (hana : ∀ pf ∈ subfilters b.filters, Analysable tops pf)
    (herr : (nestedBranchNoLb b noLb).2 = []) (hat : At ctx noLb) (hgr : NestedReEntersGranted tops ctx'.log) :
    BranchExit host b.head noLb (nestedBranchNoLb b noLb).1 ctx' flow := by
  rw [nestedBranchNoLb_eq] at herr ⊢
  have hat₁ : At (decideBranch host b.head hr ctx) noLb := hat.concat rfl nofun
  have hstart : ∀ {ctx₁}, checkReentranceLimit host b.head (decideBranch host b.head hr ctx) = (ctx₁, .ok true) →
      Returned host (ensureBranchTraceContext b.filters ctx₁).log ∧
        At (ensureBranchTraceContext b.filters ctx₁) noLb := by
    intro ctx₁ hcheck
    have hsteps := (checked_steps (E := fun _ _ => True) trivial hcheck).trans (ensureBranchTraceContext_steps b.filters ctx₁)
    have hat₂ := (checkReentranceLimit_exit host b.head hat₁).1
    rw [hcheck] at hat₂
    exact ⟨hret.mono (BranchSteps.log_mono hsteps),
      ensureBranchTraceContext_rule (P := fun c => At c noLb) (fun _ h => h.congr rfl)
        (fun pf hpf hname _ h => h.ungated ((hana pf (mem_subfilters hpf)).trace hname)) hat₂⟩
  match hrun with
  | .passed hfires =>
    refine .passed hat₁ fun hnone => ?_
    rw [shouldBranchFire, hnone] at hfires
    cases hfires
  | .overflowed hcheck =>
    have hat₂ := (checkReentranceLimit_exit host b.head hat₁).1
    rw [hcheck] at hat₂
    exact .failed hat₂.top
  | .refused hcheck =>
    obtain ⟨hat₂, hrefused⟩ := checkReentranceLimit_exit host b.head hat₁
    rw [hcheck] at hat₂ hrefused
    exact .passed hat₂ fun _ => hrefused rfl
  | .aborted hcheck h => exact .failed (h.located (hstart hcheck).1 hana herr (hstart hcheck).2 hgr).1
  | .ran hcheck h =>
    rename_i ctx₁ ctx₂ action
    have hmono := (rejoinAfter_steps (E := fun _ _ => True) b.head (hr.getD ctx.exchange.filterResults) ctx₂ action).log_mono
    obtain ⟨hall, hout⟩ := h.located (hstart hcheck).1 hana herr (hstart hcheck).2 (hgr.anti hmono)
    exact rejoinAfter_exit hall (hout _ rfl)

theorem ChainRun.located {fs : List (PipelineFilter σ)} {host : Nat} {ctx ctx' : HttpFilterContext σ}
    {r : Except Abort FilterAction} {noLb : Bool} : ChainRun fs ctx ctx' r → Returned host ctx.log →
      (∀ pf ∈ subfilters fs, Analysable tops pf) → (nestedChainNoLb fs noLb).2 = [] → At ctx noLb →
      NestedReEntersGranted tops ctx'.log →
      At ctx' true ∧ ∀ action, r = .ok action → action.stops = false → At ctx' (nestedChainNoLb fs noLb).1
  | .nil, _, _, _, hat, _ => by
    rw [nestedChainNoLb]
    exact ⟨hat.top, fun _ _ _ => hat⟩
  | .failed h, hret, hana, herr, hat, hgr => by
    rw [subfilters] at hana
    rw [nestedChainNoLb] at herr
    exact ⟨(h.located (fun p hp => hana p (mem_append_left _ hp)) (append_eq_nil_iff.1 herr).1 hat hgr).1,
      nofun⟩
  | .stopped h, hret, hana, herr, hat, hgr => by
    rw [subfilters] at hana
    rw [nestedChainNoLb] at herr
    obtain ⟨hall, -, hstops⟩ :=
      h.located (fun p hp => hana p (mem_append_left _ hp)) (append_eq_nil_iff.1 herr).1 hat hgr
    refine ⟨hall, fun action heq hgo => ?_⟩
    cases heq
    rw [hstops _ rfl] at hgo
    cases hgo
  | .next h hrest, hret, hana, herr, hat, hgr => by
    rw [subfilters] at hana
    rw [nestedChainNoLb] at herr ⊢
    obtain ⟨herr₁, herr₂⟩ := append_eq_nil_iff.1 herr
    have hret₁ := hret.mono (h.log_mono hret)
    obtain ⟨-, hgoes, -⟩ :=
      h.located (fun p hp => hana p (mem_append_left _ hp)) herr₁ hat (hgr.anti (hrest.log_mono hret₁))
    exact hrest.located hret₁ (fun p hp => hana p (mem_append_right _ hp)) herr₂ (hgoes rfl) hgr

theorem FilterRun.located {pf : PipelineFilter σ} {ctx ctx' : HttpFilterContext σ}
    {r : Except Abort (Option FilterAction)} {noLb : Bool} (hrun : FilterRun pf ctx ctx' r)
    (hana : ∀ p ∈ pf.subfilters, Analysable tops p) (herr : (nestedFilterNoLb pf noLb).2 = []) (hat : At ctx noLb)
    (hgr : NestedReEntersGranted tops ctx'.log) :
    At ctx' true ∧ (r = .ok none → At ctx' (nestedFilterNoLb pf noLb).1) ∧
      ∀ action, r = .ok (some action) → action.stops = true := by
  rw [PipelineFilter.subfilters_eq] at hana
  have hself := hana _ (.head _)
  have hbelow := fun p hp => hana p (.tail _ hp)
  rw [nestedFilterNoLb_eq] at herr ⊢
  obtain ⟨hflag, herr₂⟩ := append_eq_nil_iff.1 herr
  have hat₁ := hat.conditionsAllow hflag
  have hat₂ : ∀ {f}, pf.head.filter = .http f →
      At (enterInBranch pf.head f ctx) (noLb && !isLoadBalancer pf.head) := fun hf => hat₁.called hf (calledInBranch_log _ _ _)
  match hrun with
  | .tcp hf =>
    -- a TCP filter is passed over; it has no branches and is not a load balancer
    obtain ⟨hnil, hlb⟩ := hself.tcp (by rw [hf]; rfl)
    refine ⟨hat.top, fun _ => hat.weaken fun hno => ?_, nofun⟩
    rw [hnil, nestedBranchesExit, hlb, hno]
    exact or_true _
  | .skipped hf hskip =>
    refine ⟨hat₁.top, fun _ => hat₁.weaken fun hno => ?_, nofun⟩
    rw [hno, conditions_of_skipped hskip]
    rfl
  | .failed hf _ => exact ⟨(hat₂ hf).top, nofun, nofun⟩
  | .answered hf hout =>
    refine ⟨(hat₂ hf).top, nofun, fun action heq => ?_⟩
    cases heq
    exact branchRequestOutcome_stops hout
  | .aborted hf hout h =>
    exact ⟨(h.located (returned_calledInBranch hout) hself.nested hbelow herr₂ (hat₂ hf) hgr).1, nofun, nofun⟩
  | .branched hf hout h =>
    obtain ⟨hall, hexits⟩ := h.located (returned_calledInBranch hout) hself.nested hbelow herr₂ (hat₂ hf) hgr
    refine ⟨hall, fun hnone => (hexits _ rfl (Except.ok.inj hnone)).weaken fun hno => ?_,
      fun action heq => mapNestedOutcome_stops (Except.ok.inj heq)⟩
    rw [hno]
    exact or_true _

end

/-! ## Branches of a top-level host -/

variable {b : ResolvedBranch σ} {bs : List (ResolvedBranch σ)} {carry : Bool} {t : Nat}

theorem topLevelBranchEdges_chain (h : (topLevelBranchEdges (b :: bs) carry).2.2 = []) :
    (nestedBranchNoLb b carry).2 = [] := by
  rw [topLevelBranchEdges] at h
  dsimp only at h
  split at h
  any_goals exact (append_eq_nil_iff.1 h).1
  all_goals
    split at h
    · exact h
    · exact (append_eq_nil_iff.1 h).1

theorem topLevelBranchEdges_jump (hj : b.head.rejoin = .skipTo t ∨ b.head.rejoin = .reEnter t)
    (hc : (nestedBranchNoLb b carry).1 = true) : (t, true) ∈ (topLevelBranchEdges (b :: bs) carry).1 := by
  rw [topLevelBranchEdges]
  dsimp only
  rw [hc]
  rcases hj with hj | hj
  · rw [hj]
    dsimp only
    split
    · exact .head _
    · exact mem_append_left _ (.head _)
  · rw [hj]
    exact mem_append_left _ (.head _)

theorem topLevelBranchEdges_next (carry : Bool)
    (hb : (b.head.condition ≠ none ∨ ∃ t, b.head.rejoin = .reEnter t) ∨ b.head.rejoin = .next) : ∃ carry',
      (topLevelBranchEdges (b :: bs) carry).2.1 = (topLevelBranchEdges bs carry').2.1 ∧
      (topLevelBranchEdges bs carry').1 ⊆ (topLevelBranchEdges (b :: bs) carry).1 ∧
      ((topLevelBranchEdges (b :: bs) carry).2.2 = [] → (topLevelBranchEdges bs carry').2.2 = []) ∧
      ((b.head.condition ≠ none ∨ ∃ t, b.head.rejoin = .reEnter t) → carry = true → carry' = true) ∧
      (b.head.rejoin = .next → (nestedBranchNoLb b carry).1 = true → carry' = true) := by
  rw [topLevelBranchEdges]
  dsimp only
  have hcond : b.head.condition ≠ none → b.head.condition.isNone = false := fun h => by simpa [isSome_iff_ne_none] using h
  cases hj : b.head.rejoin with
  | next =>
    dsimp only
    refine ⟨_, rfl, fun _ h => h, fun h => (append_eq_nil_iff.1 h).2, fun hne hc => ?_, fun _ hc => ?_⟩
    · rw [hcond (hne.resolve_right (by rintro ⟨_, ⟨⟩⟩)), hc]
      exact or_true _
    · rw [hc]
      split <;> rfl
  | terminal =>
    rw [hj] at hb
    rw [hcond ((hb.resolve_right (by rintro ⟨⟩)).resolve_right (by rintro ⟨_, ⟨⟩⟩))]
    exact ⟨_, rfl, fun _ h => h, fun h => (append_eq_nil_iff.1 h).2, fun _ hc => hc, by rintro ⟨⟩⟩
  | skipTo t =>
    rw [hj] at hb
    rw [hcond ((hb.resolve_right (by rintro ⟨⟩)).resolve_right (by rintro ⟨_, ⟨⟩⟩))]
    exact ⟨_, rfl, subset_append_right _ _, fun h => (append_eq_nil_iff.1 h).2, fun _ hc => hc, by rintro ⟨⟩⟩
  | reEnter t =>
    exact ⟨_, rfl, subset_append_right _ _, fun h => (append_eq_nil_iff.1 h).2, fun _ hc => hc, by rintro ⟨⟩⟩

/-- The context lies on an edge to `t`. -/
def OnEdge (edges : List (Nat × Bool)) (t : Nat) (ctx : HttpFilterContext σ) : Prop :=
  ∃ noLb, At ctx noLb ∧ (noLb = true → (t, true) ∈ edges)

theorem OnEdge.mono {edges edges' : List (Nat × Bool)} (h : OnEdge edges t ctx) (hsub : edges ⊆ edges') :
    OnEdge edges' t ctx := by
  obtain ⟨noLb, hat, hedge⟩ := h
  exact ⟨noLb, hat, fun hno => hsub (hedge hno)⟩

/-- The branches of a top-level host: they fall through in the state the analysis carries, or
jump along one of its edges. -/
theorem BranchesRun.locatedAtTop {bs : List (ResolvedBranch σ)} {host : Nat} {hr : Option FilterResults}
    {ctx ctx' : HttpFilterContext σ} {r : Except Abort BranchOutcome} {carry : Bool} :
    BranchesRun host bs hr ctx ctx' r → Returned host ctx.log →
      (∀ pf ∈ branchSubfilters bs, Analysable tops pf) → (topLevelBranchEdges bs carry).2.2 = [] →
      At ctx carry → NestedReEntersGranted tops ctx'.log →
      At ctx' true ∧ (r = .ok .proceed → ∃ c, (topLevelBranchEdges bs carry).2.1 = some c ∧ At ctx' c) ∧
        ∀ t, r = .ok (.skipTo t) ∨ r = .ok (.reEnter t) → OnEdge (topLevelBranchEdges bs carry).1 t ctx'
  | .nil, _, _, _, hat, _ => by
    have hclear : At (clearFilterResults ctx) carry := hat.congr rfl
    exact ⟨hclear.top, fun _ => ⟨carry, rfl, hclear⟩, by rintro _ (⟨⟨⟩⟩ | ⟨⟨⟩⟩)⟩
  | .failed hb, hret, hana, herr, hat, hgr => by
    cases hb.exit hret (fun pf hpf => hana pf (subfilters_filters_subset (.head _) hpf))
      (topLevelBranchEdges_chain herr) hat hgr with
    | failed h => exact ⟨h, by rintro ⟨⟩, by rintro _ (⟨⟨⟩⟩ | ⟨⟨⟩⟩)⟩
  | .done hb, hret, hana, herr, hat, hgr => by
    cases hb.exit hret (fun pf hpf => hana pf (subfilters_filters_subset (.head _) hpf))
      (topLevelBranchEdges_chain herr) hat hgr with
    | skipped h hj =>
      refine ⟨h.top, by rintro ⟨⟩, fun t ht => ⟨_, h, ?_⟩⟩
      rcases ht with ht | ht <;> cases ht
      exact topLevelBranchEdges_jump (.inl hj)
    | reEntered h hj =>
      refine ⟨h.top, by rintro ⟨⟩, fun t ht => ⟨_, h, ?_⟩⟩
      rcases ht with ht | ht <;> cases ht
      exact topLevelBranchEdges_jump (.inr hj)
    | ended h ho =>
      refine ⟨h, fun heq => ?_, fun t ht => ?_⟩
      · cases heq
        cases ho rfl
      · rcases ht with ht | ht <;> cases ht <;> cases ho rfl
  | .next (b := b) hb hrest, hret, hana, herr, hat, hgr => by
    rename_i ctx₁ hr₁ bs
    have hret₁ := hret.mono (hb.log_mono hret)
    -- the siblings are reached in a state `carry'` that the analysis gives them
    have hcarried : ∃ carry', (topLevelBranchEdges (b :: bs) carry).2.1 = (topLevelBranchEdges bs carry').2.1 ∧
        (topLevelBranchEdges bs carry').1 ⊆ (topLevelBranchEdges (b :: bs) carry).1 ∧
        (topLevelBranchEdges bs carry').2.2 = [] ∧ At ctx₁ carry' := by
      cases hb.exit hret (fun pf hpf => hana pf (subfilters_filters_subset (.head _) hpf))
        (topLevelBranchEdges_chain herr) hat (hgr.anti (hrest.log_mono hret₁)) with
      | passed h hc =>
        have hpass : b.head.condition ≠ none ∨ ∃ t, b.head.rejoin = .reEnter t := by
          by_cases hnone : b.head.condition = none
          · obtain ⟨t, -, -, hj, -⟩ := hc hnone
            exact .inr ⟨t, hj⟩
          · exact .inl hnone
        obtain ⟨carry', hthrough, hsub, herr', hcarry, -⟩ := topLevelBranchEdges_next carry (.inl hpass)
        exact ⟨carry', hthrough, hsub, herr' herr, h.weaken (hcarry hpass)⟩
      | through h hj =>
        obtain ⟨carry', hthrough, hsub, herr', -, hcarry⟩ := topLevelBranchEdges_next carry (.inr hj)
        exact ⟨carry', hthrough, hsub, herr' herr, h.weaken (hcarry hj)⟩
    obtain ⟨carry', hthrough, hsub, herr', hat'⟩ := hcarried
    obtain ⟨hall, hproceed, hjump⟩ :=
      hrest.locatedAtTop hret₁ (fun pf hpf => hana pf (branchSubfilters_subset_cons hpf)) herr' hat' hgr
    rw [← hthrough] at hproceed
    exact ⟨hall, hproceed, fun t ht => (hjump t ht).mono hsub⟩

end

/-! ## The request loop -/

section

variable {fs : List (PipelineFilter σ)}

/-- The ids of the top-level filters. -/
def topIds (fs : List (PipelineFilter σ)) : List Nat := fs.map (·.head.filterId)

/-- No `trace_context` filter is gated: its conditions are evaluated ahead of its turn. -/
def TraceContextUngated (fs : List (PipelineFilter σ)) : Prop :=
  ∀ pf ∈ subfilters fs, pf.head.filter.name = "trace_context" →
    filterHasSelectedUpstreamCondition pf.head = false

/-- Every filter that goes by the name of the load balancer is an HTTP filter. -/
def LoadBalancersHttp (fs : List (PipelineFilter σ)) : Prop :=
  ∀ pf ∈ subfilters fs, isLoadBalancer pf.head = true → pf.head.filter.isHttp = true

/-- The loop stands at an index in the state the analysis has for it. -/
def AtIndex (fs : List (PipelineFilter σ)) (s : RequestState σ) : Prop :=
  At s.ctx ((computeTopLevelNoLb fs)[s.idx]?.getD true)

variable {pf : PipelineFilter σ}

theorem analysable_nested (hres : Resolved fs) (htrace : TraceContextUngated fs) (hlb : LoadBalancersHttp fs)
    {c : PipelineFilter σ} (hpf : pf ∈ fs) (hc : c ∈ branchSubfilters pf.branches) : Analysable (topIds fs) c := by
  have hmem : c ∈ subfilters fs := branchSubfilters_subset hpf hc
  refine ⟨htrace c hmem, fun hnot => ⟨((hres.nodes c hmem).tcp hnot).2, ?_⟩, fun htop => ?_⟩
  · refine eq_false_iff.2 fun hname => ?_
    rw [hlb c hmem hname] at hnot
    cases hnot
  · obtain ⟨p, hp, hid⟩ := mem_map.1 htop
    exact hres.top_not_nested hp (mem_subfilters hpf) hc hid.symm

variable {s : RequestState σ}

/-- Arriving at `t` along an edge of the filter at the loop's index. -/
theorem OnEdge.atIndex {s' : RequestState σ} (hpf : fs[s.idx]? = some pf)
    (hno : (computeTopLevelNoLb fs)[s.idx]? = some noLb) (h : OnEdge (topLevelFilterEdges s.idx pf noLb).1 s'.idx s'.ctx) :
    AtIndex fs s' := by
  obtain ⟨c, hat, hedge⟩ := h
  refine hat.weaken fun hc => ?_
  by_cases ht : s'.idx < fs.length
  · have hall : (s'.idx, true) ∈ topLevelEdges fs (computeTopLevelNoLb fs) :=
      mem_flatMap.2 ⟨((s.idx, pf), noLb), mem_enumerate_zip.2 ⟨hpf, hno⟩, hedge hc⟩
    rw [computeTopLevelNoLb_closed ht (.inr hall)]
    rfl
  · rw [getElem?_eq_none (by rw [computeTopLevelNoLb_length]; omega)]
    rfl

theorem checked_at (hcheck : checkSelectedUpstreamConditionOrdering fs = []) {i : Nat} (hpf : fs[i]? = some pf) :
    ∃ noLb, (computeTopLevelNoLb fs)[i]? = some noLb ∧
      flagIfGated pf.head noLb = [] ∧
      (topLevelBranchEdges pf.branches (noLb && !isLoadBalancer pf.head)).2.2 = [] := by
  obtain ⟨hlt, -⟩ := List.getElem?_eq_some_iff.1 hpf
  obtain ⟨noLb, hno⟩ : ∃ noLb, (computeTopLevelNoLb fs)[i]? = some noLb :=
    ⟨_, List.getElem?_eq_getElem (by rw [computeTopLevelNoLb_length]; exact hlt)⟩
  have hnone : (topLevelFilterEdges i pf noLb).2 = [] :=
    List.flatMap_eq_nil_iff.1 hcheck ((i, pf), noLb) (mem_enumerate_zip.2 ⟨hpf, hno⟩)
  obtain ⟨hflag, hrest⟩ := List.append_eq_nil_iff.1 hnone
  exact ⟨noLb, hno, hflag, hrest⟩

/-- The call of the filter at the loop's index, in the state the analysis enters its branches with. -/
theorem At.calledAtTop {s : RequestState σ} {pf : FilterHead σ} {f : HttpFilter σ} {noLb : Bool}
    (hf : pf.filter = .http f) (hat : At s.ctx noLb) (hflag : flagIfGated pf noLb = []) :
    At (Praxis.Pipeline.calledAtTop pf f s) (noLb && !isLoadBalancer pf) :=
  ((hat.conditionsAllow hflag).congr (enterFilter_log pf f s)).called hf (callOnRequest_log _ _ _)

/-- One pass of the loop: it goes on in the state of the next index, and evaluates no gated
conditions too early. -/
theorem topPass_at (hres : Resolved fs) (hcheck : checkSelectedUpstreamConditionOrdering fs = [])
    (htrace : TraceContextUngated fs) (hlb : LoadBalancersHttp fs) {p : Pass (RequestState σ) (RequestEnd σ)}
    (hp : TopPass fs s p) (hat : AtIndex fs s) (hgr : NestedReEntersGranted (topIds fs) (passCtx p).log) :
    At (passCtx p) true ∧ ∀ s', p = .again s' → AtIndex fs s' := by
  cases hp with
  | finished hnone => exact ⟨hat.top, fun _ hs' => by cases hs'⟩
  | tcp hpf hf =>
    rename_i pf name
    obtain ⟨noLb, hno, -, -⟩ := checked_at hcheck hpf
    have hmem : pf ∈ subfilters fs := mem_subfilters (mem_of_getElem? hpf)
    have hnot : pf.head.filter.isHttp = false := by rw [hf]; rfl
    have hname : isLoadBalancer pf.head = false := eq_false_iff.2 fun hname => by
      rw [hlb pf hmem hname] at hnot
      cases hnot
    refine ⟨hat.top, fun s' hs' => ?_⟩
    cases hs'
    rw [AtIndex, hno, getD_some] at hat
    refine OnEdge.atIndex hpf hno ⟨noLb, hat, fun hc => ?_⟩
    rw [topLevelFilterEdges, ((hres.nodes pf hmem).tcp hnot).2, topLevelBranchEdges, hname, hc]
    dsimp only
    exact mem_append_right _ (.head _)
  | skipped hpf hf hc =>
    rename_i pf f
    obtain ⟨noLb, hno, hflag, -⟩ := checked_at hcheck hpf
    rw [AtIndex, hno, getD_some] at hat
    have hat₁ := At.evaluated hat hflag
    refine ⟨hat₁.top, fun s' hs' => ?_⟩
    cases hs'
    refine OnEdge.atIndex hpf hno ⟨noLb, hat₁, fun hno' => ?_⟩
    have hne : pf.head.conditions.isEmpty = false := by rw [isEmpty_eq_false_iff]; exact hc
    rw [topLevelFilterEdges, hno', hne]
    dsimp only
    exact mem_append_left _ (mem_append_left _ (.head _))
  | failed hpf hf hfail e =>
    rename_i pf f
    obtain ⟨noLb, hno, hflag, -⟩ := checked_at hcheck hpf
    rw [AtIndex, hno, getD_some] at hat
    exact ⟨(At.calledAtTop hf hat hflag).top, fun _ hs' => by cases hs'⟩
  | answered hpf hf hfail ha =>
    rename_i pf f action
    obtain ⟨noLb, hno, hflag, -⟩ := checked_at hcheck hpf
    rw [AtIndex, hno, getD_some] at hat
    exact ⟨(At.calledAtTop hf hat hflag).top.congr (markTopLevel_log _), fun _ hs' => by cases hs'⟩
  | branched hpf hf hfail hrun =>
    rename_i pf f ctx' o
    obtain ⟨noLb, hno, hflag, herr⟩ := checked_at hcheck hpf
    rw [AtIndex, hno, getD_some] at hat
    have hat₂ : At (markTopLevel (calledAtTop pf.head f s) s.idx) (noLb && !isLoadBalancer pf.head) :=
      (At.calledAtTop hf hat hflag).congr (markTopLevel_log _)
    rw [passCtx_afterBranches] at hgr ⊢
    obtain ⟨hall, hproceed, hjump⟩ := hrun.locatedAtTop (returned_calledAtTop hfail)
      (fun c hc => analysable_nested hres htrace hlb (mem_of_getElem? hpf) hc) herr hat₂ hgr
    refine ⟨hall, fun s' hs' => ?_⟩
    obtain ⟨hctx, -, hmove⟩ := afterBranches_again hs'
    refine OnEdge.atIndex hpf hno ?_
    rw [hctx]
    have hsub : (topLevelBranchEdges pf.branches (noLb && !isLoadBalancer pf.head)).1 ⊆
        (topLevelFilterEdges s.idx pf noLb).1 := fun e he => mem_append_left _ (mem_append_right _ he)
    rcases hmove with ⟨ho, hidx⟩ | ⟨t, ho, hidx⟩ | ⟨t, ho, hidx⟩
    · obtain ⟨c, hcarry, hatc⟩ := hproceed ho
      refine ⟨c, hatc, fun hc => ?_⟩
      rw [hidx, enterFilter_idx, topLevelFilterEdges, hcarry, hc]
      dsimp only
      exact mem_append_right _ (.head _)
    · rw [hidx]
      exact (hjump t (.inl ho)).mono hsub
    · rw [hidx]
      exact (hjump t (.inr ho)).mono hsub

theorem requestStart_at (htrace : TraceContextUngated fs) (hlog : ctx.log = []) : AtIndex fs (requestStart fs ctx) := by
  have hstart : At ctx true := ⟨hlog ▸ .nil, by rintro ⟨⟩⟩
  have htraced := enablesTracePropagation_rule (P := fun c => At c true)
    (fun pf hpf hname _ h => h.ungated (htrace pf (mem_subfilters hpf) hname)) hstart
  have hctx : At (requestStart fs ctx).ctx true := by
    refine htraced.congr ?_
    unfold requestStart
    dsimp only
    split <;> rfl
  refine hctx.weaken fun _ => ?_
  show ((computeTopLevelNoLb fs)[0]?).getD true = true
  by_cases h : 0 < fs.length
  · rw [computeTopLevelNoLb_closed h (.inl rfl)]
    rfl
  · rw [getElem?_eq_none (by rw [computeTopLevelNoLb_length]; omega)]
    rfl

/-- Soundness of the selected-upstream ordering check. In a pipeline that is built from
configuration and in which the check finds nothing, every evaluation of conditions on the
selected upstream comes after a call of a load balancer, in every run that refuses no
unconditional re-entrance inside a branch. -/
theorem gated_after_load_balancer {reg : FilterRegistry σ κ} {chains : String → Option (List (FilterEntry κ))}
    {entries : List (FilterEntry κ)} (hbuild : buildWithChains reg chains entries = .ok fs)
    (hcheck : checkSelectedUpstreamConditionOrdering fs = []) (htrace : TraceContextUngated fs)
    (hlb : LoadBalancersHttp fs) {fuel : Nat} {ctx : HttpFilterContext σ} {r : RequestEnd σ}
    (hrun : executeHttpRequest fs fuel { ctx with log := [] } = some r)
    (hgranted : NestedReEntersGranted (topIds fs) r.1.log) : GatedAfterLb r.1.log := by
  have hres := buildWithChains_resolved hbuild
  have hpass : ∀ s p, requestPass fs s = p →
      (NestedReEntersGranted (topIds fs) s.ctx.log → AtIndex fs s) →
      NestedReEntersGranted (topIds fs) (passCtx p).log →
      At (passCtx p) true ∧ ∀ s', p = .again s' → AtIndex fs s' := by
    intro s p hp hI hgr
    have hcases := requestPass_cases fs s
    rw [hp] at hcases
    exact topPass_at hres hcheck htrace hlb hcases (hI (hgr.anti hcases.log_mono)) hgr
  refine (loop_inv (I := fun s : RequestState σ =>
      NestedReEntersGranted (topIds fs) s.ctx.log → AtIndex fs s)
    (Q := fun r : RequestEnd σ => NestedReEntersGranted (topIds fs) r.1.log → At r.1 true)
    (fun s s' hI hp hgr => (hpass s _ hp hI hgr).2 s' rfl) (fun s r hI hp hgr => (hpass s _ hp hI hgr).1)
    (fun _ => requestStart_at htrace rfl) hrun hgranted).gated

end

/-! ## A refused re-entrance -/

theorem not_gatedAfterLb (hgated : log.any Event.gated = true) (hnone : log.any Event.callsLoadBalancer = false) :
    ¬ GatedAfterLb log := by
  intro h
  obtain ⟨e, he, hg⟩ := any_eq_true.1 hgated
  obtain ⟨pre, post, hsplit⟩ := append_of_mem he
  obtain ⟨lb, hm, hlb⟩ := h pre e post hsplit hg
  have hin : lb ∈ log := hsplit ▸ mem_append_left _ hm
  rw [any_eq_true.2 ⟨lb, hin, hlb⟩] at hnone
  cases hnone

/-- Match on the protocol of the selected upstream. -/
def whenSelectedHttp2 : Condition :=
  .when { grpc := none, path := none, pathPrefix := none, methods := none, headers := none, headersPresent := none
          boundUpstream := none, selectedUpstream := some ⟨some "http2", none⟩ }

/-- Inside a branch, a host re-enters itself once and has a gated filter in a later branch; a
second top-level filter runs it all again. No load balancer anywhere. -/
def refusingEntries : List (FilterEntry Unit) :=
  [.mk (.plain "headers" (some "start")) (some [.mk
     { name := "outer", maxIterations := none, onResult := none, rejoin := "next" }
     [.inline "outer_chain" [.mk (.plain "headers" (some "inner")) (some
       [.mk { name := "inner_again", maxIterations := some 1, onResult := none, rejoin := "inner" }
          [.inline "inner_chain" [.mk (.plain "access_log" none) none]],
        .mk { name := "late", maxIterations := none, onResult := none, rejoin := "next" }
          [.inline "late_chain" [.mk { EntryHead.plain "cors" none with conditions := [whenSelectedHttp2] } none]]])]]]),
   .mk (.plain "request_id" none) (some [.mk
     { name := "again", maxIterations := some 1, onResult := none, rejoin := "start" }
     [.inline "again_chain" [.mk (.plain "access_log" none) none]]])]

/-- What the build makes of `refusingEntries`. -/
def refusingFilters : List (PipelineFilter Unit) :=
  [.mk (.plain 0 (some "start") (.http (.noop "headers")))
     [.mk { name := "outer", condition := none, maxIterations := none, rejoin := .next }
       [.mk (.plain 2 (some "inner") (.http (.noop "headers")))
         [.mk { name := "inner_again", condition := none, maxIterations := some 1, rejoin := .reEnter 0 }
            [.mk (.plain 3 none (.http (.noop "access_log"))) []],
          .mk { name := "late", condition := none, maxIterations := none, rejoin := .next }
            [.mk { FilterHead.plain 4 none (.http (.noop "cors")) with conditions := [whenSelectedHttp2] } []]]]],
   .mk (.plain 1 none (.http (.noop "request_id")))
     [.mk { name := "again", condition := none, maxIterations := some 1, rejoin := .reEnter 0 }
       [.mk (.plain 5 none (.http (.noop "access_log"))) []]]]

/-- All checks accept the pipeline; on the second pass the inner re-entrance is refused and the
gated conditions are evaluated, with no load balancer called. -/
theorem refusingFilters_gated :
    buildWithChains noopRegistry (fun _ => none) refusingEntries = .ok refusingFilters ∧
    orderingErrors (fun _ => false) false .none refusingFilters = [] ∧
    checkSelectedUpstreamConditionOrdering refusingFilters = [] ∧
    ∃ r, executeHttpRequest refusingFilters 5 { fresh ⟨"GET", "/", []⟩ () with log := [] } = some r ∧
      ¬ GatedAfterLb r.1.log := by
  refine ⟨rfl, by decide +kernel, by decide +kernel, ?_⟩
  have hruns : (executeHttpRequest refusingFilters 5
      { fresh ⟨"GET", "/", []⟩ () with log := [] }).any (fun r =>
        r.1.log.any Event.gated && !r.1.log.any Event.callsLoadBalancer) = true := by decide +kernel
  obtain ⟨r, hr, hlog⟩ := (any_eq_true _ _).1 hruns
  obtain ⟨hgated, hnone⟩ := and_eq_true_iff.1 hlog
  exact ⟨r, hr, not_gatedAfterLb hgated (by rw [not_eq_true'] at hnone; exact hnone)⟩

/-- A consulted limit that lets the branch fire, or no such event. -/
def Event.granted : Event → Bool
  | .counted _ b count => b.maxIterations.all (count < ·)
  | _ => true

/-- A load balancer ahead of a filter whose branch has a host that re-enters itself and a gated filter. -/
def balancedEntries : List (FilterEntry Unit) :=
  [.mk (.plain "load_balancer" none) none,
   .mk (.plain "headers" none) (some [.mk
     { name := "outer", maxIterations := none, onResult := none, rejoin := "next" }
     [.inline "outer_chain"
       [.mk (.plain "headers" (some "inner")) (some [.mk
          { name := "inner_again", maxIterations := some 1, onResult := none, rejoin := "inner" }
          [.inline "inner_chain" [.mk (.plain "access_log" none) none]]]),
        .mk { EntryHead.plain "cors" none with conditions := [whenSelectedHttp2] } none]]])]

/-- What the build makes of `balancedEntries`. -/
def balancedFilters : List (PipelineFilter Unit) :=
  [.mk (.plain 0 none (.http (.noop "load_balancer"))) [],
   .mk (.plain 1 none (.http (.noop "headers")))
     [.mk { name := "outer", condition := none, maxIterations := none, rejoin := .next }
       [.mk (.plain 2 (some "inner") (.http (.noop "headers")))
         [.mk { name := "inner_again", condition := none, maxIterations := some 1, rejoin := .reEnter 0 }
           [.mk (.plain 4 none (.http (.noop "access_log"))) []]],
        .mk { FilterHead.plain 3 none (.http (.noop "cors")) with conditions := [whenSelectedHttp2] } []]]]

/-- The inner re-entrance is granted once, and the gated filter comes after the load balancer. -/
theorem balancedFilters_gated : ∃ r,
    executeHttpRequest balancedFilters 3 { fresh ⟨"GET", "/", []⟩ () with log := [] } = some r ∧
      r.1.log.any Event.gated = true ∧ GatedAfterLb r.1.log := by
  have hruns : (executeHttpRequest balancedFilters 3
      { fresh ⟨"GET", "/", []⟩ () with log := [] }).any (fun r =>
        r.1.log.any Event.gated && r.1.log.all Event.granted) = true := by
    decide +kernel
  obtain ⟨r, hr, hlog⟩ := (any_eq_true _ _).1 hruns
  obtain ⟨hgated, hcounted⟩ := and_eq_true_iff.1 hlog
  refine ⟨r, hr, hgated, gated_after_load_balancer
    (show buildWithChains noopRegistry (fun _ => none) balancedEntries = .ok balancedFilters from rfl)
    (by decide +kernel) ?_ ?_ hr ?_⟩
  · rintro pf hpf hname
    simp [balancedFilters] at hpf
    rcases hpf with rfl | rfl | rfl | rfl | rfl <;> revert hname <;> decide
  · rintro pf hpf -
    simp [balancedFilters] at hpf
    rcases hpf with rfl | rfl | rfl | rfl | rfl <;> rfl
  · rintro host b count hm - - limit hlimit
    have hgranted : b.maxIterations.all (count < ·) = true := all_eq_true.1 hcounted _ hm
    simpa [hlimit] using hgranted

end Praxis.Pipeline
