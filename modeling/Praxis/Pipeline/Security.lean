/-
Which security filters a forwarded request has met. The checks keep conditions off security
filters and keep `SkipTo` jumps from passing over them; backward jumps pass over nothing. What is
left is a terminal branch that forwards: it does so when an upstream was selected inside the
host's branches, which the checks do not see, since they look for cluster selection only.
-/
import Praxis.Pipeline.EndpointSelector
import Praxis.Pipeline.Ordering
import Praxis.Pipeline.Termination

namespace Praxis.Pipeline

open List Praxis.Lib

variable {σ κ : Type}

/-! ## What the checks say -/

/-- A security filter that runs in the HTTP request phase. -/
structure HttpSecurity (pf : PipelineFilter σ) : Prop where
  security : pf.head.isSecurity = true
  http : pf.head.filter.isHttp = true

variable {fs : List (PipelineFilter σ)} {i : Nat} {pf : PipelineFilter σ} {ctx : HttpFilterContext σ}

theorem checkConditionalSecurity_nil (h : checkConditionalSecurity fs = []) (hpf : fs[i]? = some pf)
    (hs : pf.head.isSecurity = true) : pf.head.conditions = [] := by
  have hnil := (append_eq_nil_iff.1 h).1
  rw [map_eq_nil_iff, filter_eq_nil_iff] at hnil
  have := hnil (i, pf) (mem_enumerate.2 hpf)
  simpa [hs] using this

theorem checkSkipToBypassesSecurity_nil (h : checkSkipToBypassesSecurity fs = []) {j t : Nat} {q : PipelineFilter σ}
    {b : ResolvedBranch σ} (hpf : fs[i]? = some pf) (hb : b ∈ pf.branches) (ht : b.head.rejoin = .skipTo t)
    (hq : fs[j]? = some q) (hij : i < j) (hjt : j < t) : q.head.isSecurity = false := by
  unfold checkSkipToBypassesSecurity at h
  have hi := flatMap_eq_nil_iff.1 h (i, pf) (mem_enumerate.2 hpf)
  have hbr := flatMap_eq_nil_iff.1 hi b hb
  rw [ht] at hbr
  dsimp only at hbr
  rw [map_eq_nil_iff, filter_eq_nil_iff] at hbr
  have := hbr (j, q) (mem_enumerate.2 hq)
  simpa [hij, hjt] using this

theorem orderingErrors_nil {allowsOverride : Nat → Bool} {allowOpen : Bool}
    (h : orderingErrors allowsOverride allowOpen .none fs = []) :
    checkConditionalSecurity fs = [] ∧ checkSkipToBypassesSecurity fs = [] := by
  have hnil := flatten_eq_nil_iff.1 h
  refine ⟨?_, ?_⟩
  · have := hnil (if SkipPipelineChecks.none.conditionalSecurity then [] else checkConditionalSecurity fs)
      (by simp only [mem_cons, true_or, or_true])
    exact this
  · exact hnil (checkSkipToBypassesSecurity fs) (by simp only [mem_cons, true_or, or_true])

/-! ## Upstream selection -/

/-- The filter's `on_request` never changes the selected upstream. -/
def LeavesUpstream (pf : PipelineFilter σ) : Prop :=
  ∀ f, pf.head.filter = .http f → ∀ books ex, (f.onRequest books ex).1.upstream = ex.upstream

theorem BranchSteps.upstream_eq {E : Nat → ResolvedBranch σ → Prop} (hE : ∀ h b, E h b → ∀ pf ∈ b.filters, LeavesUpstream pf)
    {ctx' : HttpFilterContext σ} (h : BranchSteps E ctx ctx') : ctx'.exchange.upstream = ctx.exchange.upstream := by
  refine BranchSteps.invariant (I := fun c => c.exchange.upstream = ctx.exchange.upstream) ?_ h rfl
  intro c c' hs hc
  cases hs with
  | called hEb hpf hf hr =>
    rw [calledInBranch_exchange]
    exact (hE _ _ hEb _ hpf _ hf _ _).trans hc
  | clear | trace | evaluated | decided => exact hc
  | checked _ => exact checkReentranceLimit_rule (P := fun c => c.exchange.upstream = ctx.exchange.upstream) hc hc hc

theorem branchSelectedUpstream_same {before : HttpFilterContext σ} (h : ctx.exchange.upstream = before.exchange.upstream) :
    branchSelectedUpstream (before.exchange.upstream.map (·.address)) ctx = false := by
  unfold branchSelectedUpstream
  rw [h]
  cases before.exchange.upstream with
  | none => rfl
  | some u => simp [ArcStr.ptrEq]

/-- No upstream is selected inside the branches that can send a request past a security filter:
where a host has a terminal branch and a security filter comes later, the filters of that branch
and of the branches listed before it leave the upstream alone. -/
def TerminalBranchesSelectNothing (fs : List (PipelineFilter σ)) : Prop :=
  ∀ i (pf : PipelineFilter σ), fs[i]? = some pf → ∀ pre b post, pf.branches = pre ++ b :: post →
    b.head.rejoin = .terminal → (∃ (j : Nat) (q : PipelineFilter σ), i < j ∧ fs[j]? = some q ∧ HttpSecurity q) →
    ∀ c ∈ branchSubfilters (pre ++ [b]), LeavesUpstream c

/-! ## Runs -/

/-- Every security filter before position `idx` was called since the log `start`. -/
def SecurityRan (fs : List (PipelineFilter σ)) (start : List Event) (idx : Nat) (log : List Event) : Prop :=
  ∀ (j : Nat) (q : PipelineFilter σ), j < idx → fs[j]? = some q → HttpSecurity q →
    callsOf q.head.filterId start < callsOf q.head.filterId log

theorem SecurityRan.mono {start log log' : List Event} {idx idx' : Nat} (h : SecurityRan fs start idx log)
    (hlog : log <+: log') (hidx : idx' ≤ idx) : SecurityRan fs start idx' log' := by
  intro j q hj hq hs
  have := h j q (by omega) hq hs
  obtain ⟨more, rfl⟩ := hlog
  rw [callsOf_append]
  omega

/-- A forwarded request: the phase ends with `Continue` and a cluster or an upstream is selected. -/
structure Forwards (r : RequestEnd σ) : Prop where
  proceeds : r.2 = .ok .proceed
  selected : r.1.exchange.cluster.isSome = true ∨ r.1.exchange.upstream.isSome = true

section

variable {fs : List (PipelineFilter σ)} {start : List Event} {s : RequestState σ}

/-- The call of the filter at the loop's index extends what has run by that position. -/
theorem securityRan_called {f : HttpFilter σ} (hpf : fs[s.idx]? = some pf)
    (hI : SecurityRan fs start s.idx s.ctx.log) (hs : start <+: s.ctx.log) :
    SecurityRan fs start (s.idx + 1) (calledAtTop pf.head f s).log := by
  intro j q hj hq hsec
  rw [calledAtTop_log, callsOf_append, callsOf_append, callsOf_callEvent]
  by_cases hji : j = s.idx
  · subst hji
    cases hpf.symm.trans hq
    obtain ⟨more, hmore⟩ := hs
    rw [← hmore, callsOf_append, if_pos rfl]
    omega
  · have := hI j q (by omega) hq hsec
    omega

theorem securityRan_again (hres : Resolved fs) (hcond : checkConditionalSecurity fs = [])
    (hskip : checkSkipToBypassesSecurity fs = []) {s' : RequestState σ} (hs : start <+: s.ctx.log)
    (hI : SecurityRan fs start s.idx s.ctx.log) (h : TopPass fs s (.again s')) :
    SecurityRan fs start s'.idx s'.ctx.log := by
  have hlog := h.log_mono
  generalize hr : Pass.again s' = r at h hlog
  cases h with
  | finished _ => cases hr
  | tcp hpf hf =>
    rename_i pf name
    cases hr
    intro j q hj hq hsec
    by_cases hji : j = s.idx
    · -- the filter passed over is not an HTTP filter
      subst hji
      cases hpf.symm.trans hq
      have := hsec.http
      rw [hf] at this
      cases this
    · exact hI j q (show j < s.idx by change j < s.idx + 1 at hj; omega) hq hsec
  | skipped hpf hf hc =>
    rename_i pf f
    cases hr
    intro j q hj hq hsec
    by_cases hji : j = s.idx
    · subst hji
      cases hpf.symm.trans hq
      exact absurd (checkConditionalSecurity_nil hcond hq hsec.security) hc
    · exact (hI.mono hlog le_rfl) j q (show j < s.idx by change j < s.idx + 1 at hj; omega) hq hsec
  | failed | answered => cases hr
  | branched hpf hf hfail hrun =>
    rename_i pf f ctx' o
    obtain ⟨hctx, -, hmove⟩ := afterBranches_again hr.symm
    have hret : Returned pf.head.filterId (markTopLevel (calledAtTop pf.head f s) s.idx).log :=
      returned_calledAtTop hfail
    have hran := (securityRan_called (f := f) hpf hI hs).mono (hrun.log_mono hret) le_rfl
    rw [enterFilter_idx] at hmove
    rw [hctx]
    rcases hmove with ⟨-, hidx⟩ | ⟨t, ho, hidx⟩ | ⟨t, ho, hidx⟩
    · rw [hidx]
      exact hran
    · rw [ho] at hrun
      obtain ⟨pre, b, post, hbs, ⟨mid, -, hend⟩, -⟩ := hrun.ended hret nofun
      have hb : b ∈ pf.branches := by rw [hbs]; simp
      intro j q hj hq hsec
      rw [hidx] at hj
      by_cases hij : s.idx < j
      · have := checkSkipToBypassesSecurity_nil hskip hpf hb hend hq hij hj
        rw [hsec.security] at this
        cases this
      · exact hran j q (by omega) hq hsec
    · rw [ho] at hrun
      obtain ⟨pre, b, post, hbs, ⟨mid, -, hend⟩, -⟩ := hrun.ended hret nofun
      have hb : b ∈ pf.branches := by rw [hbs]; simp
      obtain ⟨hback, -⟩ := hres.backward s.idx pf hpf b hb t hend.1
      rw [hidx]
      exact hran.mono (prefix_refl _) (by omega)

theorem securityRan_stop (hterm : TerminalBranchesSelectNothing fs) {r : RequestEnd σ} (hs : start <+: s.ctx.log)
    (hI : SecurityRan fs start s.idx s.ctx.log) (h : TopPass fs s (.stop r)) (hr : r.2 = .ok .proceed) :
    SecurityRan fs start fs.length r.1.log := by
  generalize hp : Pass.stop r = p at h
  cases h with
  | finished hnone =>
    cases hp
    exact hI.mono (prefix_refl _) (getElem?_eq_none_iff.1 hnone)
  | tcp | skipped => cases hp
  | failed _ _ _ _ =>
    cases hp
    cases hr
  | answered hpf hf hfail ha =>
    cases hp
    cases hr
    cases ha rfl
  | branched hpf hf hfail hrun =>
    rename_i pf f ctx' o
    obtain ⟨ctxr, res⟩ := r
    obtain ⟨rfl, hfwd⟩ := afterBranches_stop hp.symm
    obtain ⟨ho, hsel⟩ := hfwd hr
    have hret : Returned pf.head.filterId (markTopLevel (calledAtTop pf.head f s) s.idx).log :=
      returned_calledAtTop hfail
    have hran := (securityRan_called (f := f) hpf hI hs).mono (hrun.log_mono hret) le_rfl
    intro j q hj hq hsec
    by_cases hij : s.idx < j
    · -- a later security filter: then the branches selected no upstream, and the phase rejects
      rw [ho] at hrun
      obtain ⟨pre, b, post, hbs, ⟨mid, -, hend⟩, hpre⟩ := hrun.ended hret nofun
      have hleaves := hterm s.idx pf hpf pre b post hbs hend ⟨j, q, hij, hq, hsec⟩
      have hsame := (hpre.steps hret (covers_branchSubfilters _ _)).upstream_eq fun _ b hb c hc => hleaves c (hb c hc)
      have hnone : branchSelectedUpstream ((calledAtTop pf.head f s).exchange.upstream.map (·.address)) _ = false :=
        branchSelectedUpstream_same hsame
      rw [hnone] at hsel
      cases hsel
    · exact hran j q (by omega) hq hsec

end

/-- No security bypass: a pipeline that is built from configuration and passes the checks with
none skipped, and in which no branch that could send a request past a security filter selects an
upstream, forwards a request only after every top-level HTTP security filter was called. -/
theorem forwards_after_security {reg : FilterRegistry σ κ} {chains : String → Option (List (FilterEntry κ))}
    {entries : List (FilterEntry κ)} {fs : List (PipelineFilter σ)} {allowsOverride : Nat → Bool}
    (hbuild : buildWithChains reg chains entries = .ok fs)
    (hchecks : orderingErrors allowsOverride false .none fs = [])
    (hterm : TerminalBranchesSelectNothing fs) {fuel : Nat} {ctx : HttpFilterContext σ} {r : RequestEnd σ}
    (hrun : executeHttpRequest fs fuel ctx = some r) (hfwd : Forwards r) :
    ∀ q ∈ fs, HttpSecurity q → callsOf q.head.filterId ctx.log < callsOf q.head.filterId r.1.log := by
  have hres := buildWithChains_resolved hbuild
  obtain ⟨hcond, hskip⟩ := orderingErrors_nil hchecks
  have hend : r.2 = .ok .proceed → SecurityRan fs ctx.log fs.length r.1.log := by
    refine loop_inv (I := fun s : RequestState σ => ctx.log <+: s.ctx.log ∧
      SecurityRan fs ctx.log s.idx s.ctx.log)
      (Q := fun r : RequestEnd σ => r.2 = .ok .proceed → SecurityRan fs ctx.log fs.length r.1.log)
      ?_ ?_ ⟨(quiet_requestStart fs ctx).undisturbed.log, ?_⟩ hrun
    · intro s s' ⟨hlog, hI⟩ hpass
      have h := requestPass_cases fs s
      rw [hpass] at h
      exact ⟨hlog.trans h.log_mono, securityRan_again hres hcond hskip hlog hI h⟩
    · intro s r ⟨hlog, hI⟩ hpass hr
      have h := requestPass_cases fs s
      rw [hpass] at h
      exact securityRan_stop hterm hlog hI h hr
    · intro j q hj
      exact absurd hj (Nat.not_lt_zero j)
  intro q hq hsec
  obtain ⟨j, hj⟩ := List.mem_iff_getElem?.1 hq
  obtain ⟨hlt, -⟩ := List.getElem?_eq_some_iff.1 hj
  exact hend hfwd.proceeds j q hlt hj hsec

/-! ## A bypass -/

/-- Exchanges over a header map that is a list of entries. -/
abbrev Headed : Type := HeaderWorld (List (String × HeaderValue))

/-- A request on which no filter has queued or logged anything. -/
def plainRequest : HttpFilterContext Headed := .fresh ⟨"GET", "/", []⟩ ⟨⟨[], [], [], [], [], []⟩, 0⟩

/-- `headers` with one `request_set` entry. -/
def headersFilter : HttpFilter Headed :=
  HeaderFilter.toHttpFilter assocHttp ⟨[], [], [("x-destination", utf8 "10.0.0.1:8080")]⟩

/-- `endpoint_selector` over that header, with the defaults of its other settings. -/
def selectorFilter : HttpFilter Headed := EndpointSelectorFilter.toHttpFilter assocHttp ⟨false, "x-destination", 500, true⟩

/-- A registry whose configurations are the filters, with the security filter `ip_acl`. -/
def selectorRegistry : FilterRegistry Headed (HttpFilter Headed) :=
  { create := fun _ f _ budget => .ok (.http f, budget)
    isSecurityFilter := fun name => name == "ip_acl" }

/-- An entry without conditions, failing closed. -/
def entryOf (f : HttpFilter Headed) : EntryHead (HttpFilter Headed) :=
  { EntryHead.plain f.name none with config := f }

/-- `headers`, hosting a terminal branch that selects an endpoint. -/
def hostEntry : FilterEntry (HttpFilter Headed) :=
  .mk (entryOf headersFilter) (some [.mk
    { name := "direct", maxIterations := none, onResult := none, rejoin := "terminal" }
    [.inline "direct_chain" [.mk (entryOf selectorFilter) none]]])

def aclEntry : FilterEntry (HttpFilter Headed) := .mk (entryOf (.noop "ip_acl")) none

/-- What the build makes of `hostEntry` at a position of the pipeline. -/
def hostAt (id : Nat) : PipelineFilter Headed :=
  .mk (.plain id none (.http headersFilter))
    [.mk { name := "direct", condition := none, maxIterations := none, rejoin := .terminal }
      [.mk (.plain 2 none (.http selectorFilter)) []]]

/-- What the build makes of `aclEntry`. -/
def aclAt (id : Nat) : PipelineFilter Headed :=
  .mk { FilterHead.plain id none (.http (.noop "ip_acl")) with isSecurity := true } []

/-- The branch ahead of the security filter. -/
def bypassingFilters : List (PipelineFilter Headed) := [hostAt 0, aclAt 1]

/-- The checks accept the pipeline, yet the request is forwarded and `ip_acl` never runs. -/
theorem bypassingFilters_bypass :
    buildWithChains selectorRegistry (fun _ => none) [hostEntry, aclEntry] = .ok bypassingFilters ∧
    orderingErrors (fun _ => false) false .none bypassingFilters = [] ∧
    ∃ r, executeHttpRequest bypassingFilters 2 plainRequest = some r ∧ Forwards r ∧
      ∃ q ∈ bypassingFilters, HttpSecurity q ∧ callsOf q.head.filterId r.1.log = 0 := by
  refine ⟨rfl, by decide +kernel, _, rfl, ⟨rfl, .inr rfl⟩, _, .tail _ (.head _), ⟨rfl, rfl⟩, ?_⟩
  decide +kernel

/-- The same branch behind the security filter: now the condition of `forwards_after_security`
holds. -/
def guardedFilters : List (PipelineFilter Headed) := [aclAt 0, hostAt 1]

theorem guardedFilters_selectNothing : TerminalBranchesSelectNothing guardedFilters := by
  intro i pf hpf pre b post hbs hb hlater
  obtain ⟨j, q, hij, hq, hsec⟩ := hlater
  -- The only security filter is the first one.
  match j, hq with
  | 0, _ => omega
  | 1, hq =>
    cases hq
    cases hsec.security

theorem guardedFilters_forward :
    ∃ r, executeHttpRequest guardedFilters 3 plainRequest = some r ∧ Forwards r ∧
      ∀ q ∈ guardedFilters, HttpSecurity q → callsOf q.head.filterId plainRequest.log < callsOf q.head.filterId r.1.log :=
  ⟨_, rfl, ⟨rfl, .inr rfl⟩, forwards_after_security
    (show buildWithChains selectorRegistry (fun _ => none) [aclEntry, hostEntry] = .ok guardedFilters from rfl)
    (show orderingErrors (fun _ => false) false .none guardedFilters = [] by decide +kernel)
    guardedFilters_selectNothing
    (show executeHttpRequest guardedFilters 3 plainRequest = some _ from rfl) ⟨rfl, .inr rfl⟩⟩

end Praxis.Pipeline
