/-
Branch decisions depend only on the host. The results of filters live in one map keyed by type
name, so what a host's branches consult is the host's own entry only if nobody else's entry is
in the map under that name when the host is called. The executor clears the map after each
filter's branches, but not before it runs a branch's chain: the first filter called there still
finds the entries of the enclosing hosts. Where no enclosing host writes under the name that a
host's branches consult, every decision is a function of what the host's latest call wrote.
-/
import Praxis.Lib.Trace
import Praxis.Pipeline.Passes
import Praxis.Pipeline.Resolved

namespace Praxis.Pipeline

open HttpFilterContext List Option Praxis.Lib Relation

variable {σ κ : Type}

/-! ## What a call wrote -/

/-- The results before and after a call of `host`. -/
def Event.callOf (host : Nat) : Event → Option (FilterResults × FilterResults)
  | .called filter _ before after _ => if filter = host then some (before, after) else none
  | _ => none

/-- The results before and after the latest call of `host`. -/
def lastCall (host : Nat) (log : List Event) : Option (FilterResults × FilterResults) := latest (Event.callOf host) log

/-- What a call wrote under `name`: the entry it left there, unless it is the one it found. -/
def ownEntry (before after : FilterResults) (name : String) : Option FilterResultSet :=
  if after.get name = before.get name then none else after.get name

/-- What the latest call of `host` wrote of what branch `b` consults. -/
def ownResults (host : Nat) (b : BranchHead) (log : List Event) : Option FilterResultSet :=
  (lastCall host log).bind fun call => b.condition.bind fun cond => ownEntry call.1 call.2 cond.filterName

/-- Whether a branch fires on the entry it consults. -/
def firesOn (b : BranchHead) (entry : Option FilterResultSet) : Bool :=
  match b.condition with
  | none => true
  | some cond => resultMatches (entry.bind (·.get cond.key)) cond.matcher

theorem shouldBranchFire_eq {b : BranchHead} (results : FilterResults) :
    shouldBranchFire b results = firesOn b (consulted b results) := by
  unfold shouldBranchFire firesOn consulted
  cases b.condition <;> rfl

/-- A decision on a branch is made on what the latest call of its host wrote. -/
def DecidedByHost (pre : List Event) : Event → Prop
  | .decided host b entry fires =>
    (lastCall host pre).isSome ∧ entry = ownResults host b pre ∧ fires = firesOn b entry
  | _ => True

/-- Every decision in the log is. -/
def HostDecides (log : List Event) : Prop := Throughout DecidedByHost log

theorem HostDecides.record {ctx : HttpFilterContext σ} {e : Event} (h : HostDecides ctx.log)
    (he : DecidedByHost ctx.log e) : HostDecides (ctx.record e).log := Throughout.concat h he

theorem lastCall_callEvent (pf : FilterHead σ) (f : HttpFilter σ) {ctx : HttpFilterContext σ} :
    lastCall pf.filterId (ctx.log ++ [callEvent pf f ctx]) =
      some (ctx.exchange.filterResults, (callOnRequest pf f ctx).1.exchange.filterResults) := by
  rw [lastCall, latest_concat, callEvent, Event.callOf, if_pos rfl]
  rfl

variable {host : Nat} {ctx ctx' : HttpFilterContext σ} {fs : List (PipelineFilter σ)}

theorem lastCall_of_ne {pf : FilterHead σ} (hne : pf.filterId ≠ host) (f : HttpFilter σ) :
    lastCall host (ctx.log ++ [callEvent pf f ctx]) = lastCall host ctx.log := by
  rw [lastCall, latest_concat, callEvent, Event.callOf, if_neg hne]
  rfl

theorem BranchSteps.lastCall_eq {E : Nat → ResolvedBranch σ → Prop}
    (hE : ∀ h b, E h b → ∀ c ∈ b.filters, c.head.filterId ≠ host) (h : BranchSteps E ctx ctx') :
    lastCall host ctx'.log = lastCall host ctx.log := by
  refine h.invariant (I := fun c => lastCall host c.log = lastCall host ctx.log) ?_ rfl
  intro c c' hs hc
  cases hs with
  | clear | trace => exact hc
  | evaluated | decided => exact (latest_concat _ _ _).trans hc
  | checked _ =>
    exact checkReentranceLimit_rule (P := fun c => lastCall host c.log = lastCall host ctx.log) hc
      ((latest_concat _ _ _).trans hc) ((latest_concat _ _ _).trans hc)
  | called hE' hpf hf hr => rw [calledInBranch_log, lastCall_of_ne (hE _ _ hE' _ hpf)]; exact hc

/-! ## Entries of others -/

/-- The filter's request hook leaves the entry under `name` alone. -/
def LeavesEntry (f : HttpFilter σ) (name : String) : Prop :=
  ∀ books exchange, (f.onRequest books exchange).1.filterResults.get name = exchange.filterResults.get name

/-- `results` has no entry under a name that the branches of `fs` consult. -/
def NoEntries (fs : List (PipelineFilter σ)) (results : FilterResults) : Prop :=
  ∀ c ∈ fs, ∀ b ∈ c.branches, ∀ cond, b.head.condition = some cond → results.get cond.filterName = none

theorem NoEntries.mono {fs' : List (PipelineFilter σ)} {results : FilterResults} (h : NoEntries fs results) (hsub : fs' ⊆ fs) :
    NoEntries fs' results := fun c hc => h c (hsub hc)

theorem noEntries_empty (fs : List (PipelineFilter σ)) : NoEntries fs .empty := fun _ _ _ _ _ _ => rfl

/-- A filter that is not below itself and leaves alone what the hosts below it consult. -/
structure Isolated (pf : PipelineFilter σ) : Prop where
  distinct : pf.head.filterId ∉ branchFilterIds pf.branches
  leaves : ∀ f, pf.head.filter = .http f → ∀ c ∈ branchSubfilters pf.branches, ∀ b ∈ c.branches, ∀ cond,
    b.head.condition = some cond → LeavesEntry f cond.filterName

theorem Isolated.called {pf : PipelineFilter σ} (h : Isolated pf) {f : HttpFilter σ} (hf : pf.head.filter = .http f)
    (hnone : NoEntries (branchSubfilters pf.branches) ctx.exchange.filterResults) :
    NoEntries (branchSubfilters pf.branches) (callOnRequest pf.head f ctx).1.exchange.filterResults := by
  intro c hc b hb cond hcond
  exact (h.leaves f hf c hc b hb cond hcond _ _).trans (hnone c hc b hb cond hcond)

/-- The results after a chain: untouched when nothing in it was called, else cleared. -/
def KeptOrCleared (ctx ctx' : HttpFilterContext σ) : Prop :=
  ctx'.exchange.filterResults = ctx.exchange.filterResults ∨ ctx'.exchange.filterResults = .empty

theorem KeptOrCleared.trans {ctx₁ ctx₂ ctx₃ : HttpFilterContext σ} (h : KeptOrCleared ctx₁ ctx₂)
    (h' : KeptOrCleared ctx₂ ctx₃) : KeptOrCleared ctx₁ ctx₃ := by
  rcases h' with h' | h'
  · exact h.imp h'.trans h'.trans
  · exact .inr h'

theorem KeptOrCleared.noEntries (h : KeptOrCleared ctx ctx') (hnone : NoEntries fs ctx.exchange.filterResults) :
    NoEntries fs ctx'.exchange.filterResults := by
  rcases h with h | h
  · rw [h]
    exact hnone
  · rw [h]
    exact noEntries_empty fs

/-! ## The evaluator -/

/-- The evaluator is about to decide on branches of `host`: it consults the results that the
host's latest call left, and that call found none of the entries the branches consult. -/
structure Consulting (host : Nat) (bs : List (ResolvedBranch σ)) (hr : Option FilterResults)
    (ctx : HttpFilterContext σ) : Prop where
  decides : HostDecides ctx.log
  call : ∃ before, lastCall host ctx.log = some (before, hr.getD ctx.exchange.filterResults) ∧
    ∀ b ∈ bs, ∀ cond, b.head.condition = some cond → before.get cond.filterName = none
  nested : NoEntries (branchSubfilters bs) ctx.exchange.filterResults

theorem Consulting.decided {host : Nat} {b : ResolvedBranch σ} {bs : List (ResolvedBranch σ)}
    {hr : Option FilterResults} {ctx : HttpFilterContext σ} (h : Consulting host bs hr ctx) (hb : b ∈ bs) :
    DecidedByHost ctx.log (.decided host b.head (consulted b.head (hr.getD ctx.exchange.filterResults))
      (shouldBranchFire b.head (hr.getD ctx.exchange.filterResults))) := by
  obtain ⟨before, hcall, hbefore⟩ := h.call
  refine ⟨by rw [hcall]; rfl, ?_, shouldBranchFire_eq _⟩
  rw [ownResults, hcall, bind_some, consulted]
  cases hcond : b.head.condition with
  | none => rfl
  | some cond =>
    rw [bind_some, bind_some, ownEntry, hbefore b hb cond hcond]
    split
    · assumption
    · rfl

theorem ensureBranchTraceContext_keeps (pfs : List (PipelineFilter σ)) (h : HostDecides ctx.log) :
    HostDecides (ensureBranchTraceContext pfs ctx).log ∧
      (ensureBranchTraceContext pfs ctx).exchange.filterResults = ctx.exchange.filterResults :=
  ensureBranchTraceContext_rule (P := fun c => HostDecides c.log ∧ c.exchange.filterResults = ctx.exchange.filterResults)
    (fun _ h => h) (fun _ _ _ _ h => ⟨h.1.record trivial, h.2⟩) ⟨h, rfl⟩

theorem conditionsAllow_keeps (pf : FilterHead σ) (h : HostDecides ctx.log) :
    HostDecides (conditionsAllow pf ctx).1.log ∧
      (conditionsAllow pf ctx).1.exchange.filterResults = ctx.exchange.filterResults := by
  unfold conditionsAllow
  split
  · exact ⟨h, rfl⟩
  · exact ⟨h.record trivial, rfl⟩

theorem checkReentranceLimit_keeps (host : Nat) (b : BranchHead) (h : HostDecides ctx.log) :
    HostDecides (checkReentranceLimit host b ctx).1.log ∧
      (checkReentranceLimit host b ctx).1.exchange.filterResults = ctx.exchange.filterResults :=
  checkReentranceLimit_rule (P := fun c => HostDecides c.log ∧ c.exchange.filterResults = ctx.exchange.filterResults)
    ⟨h, rfl⟩ ⟨h.record trivial, rfl⟩ ⟨h.record trivial, rfl⟩

theorem rejoinAfter_keeps (b : BranchHead) (snapshot : FilterResults) (ctx : HttpFilterContext σ)
    (action : FilterAction) : (rejoinAfter b snapshot ctx action).1.log = ctx.log ∧
      (∀ hr, (rejoinAfter b snapshot ctx action).2 = .next hr → action.stops = false ∧ hr = some snapshot ∧
        (rejoinAfter b snapshot ctx action).1 = ctx) ∧
      ∀ o, (rejoinAfter b snapshot ctx action).2 = .done o → mapNestedOutcome o = none →
        (rejoinAfter b snapshot ctx action).1.exchange.filterResults = .empty := by
  unfold rejoinAfter
  split
  any_goals exact ⟨rfl, by rintro _ ⟨⟩, fun o ho hnone => by cases ho; cases hnone⟩
  all_goals
    split
    · exact ⟨rfl, fun hr h => by cases h; exact ⟨rfl, rfl, rfl⟩, by rintro _ ⟨⟩⟩
    · exact ⟨rfl, by rintro _ ⟨⟩, fun o ho hnone => by cases ho; cases hnone⟩
    · exact ⟨rfl, by rintro _ ⟨⟩, fun _ _ _ => rfl⟩
    · exact ⟨rfl, by rintro _ ⟨⟩, fun _ _ _ => rfl⟩

/-- The host's latest call stands while one of its branches is evaluated. -/
theorem BranchRun.lastCall_eq {b : ResolvedBranch σ} {host : Nat} {hr : Option FilterResults}
    {ctx ctx' : HttpFilterContext σ} {r : Except Abort BranchFlow} (h : BranchRun host b hr ctx ctx' r)
    (hret : Returned host ctx.log) (hhost : host ∉ (subfilters b.filters).map (·.head.filterId)) :
    lastCall host ctx'.log = lastCall host ctx.log := by
  have hcovers := covers_branchSubfilters host [b]
  rw [branchSubfilters_cons, branchSubfilters_nil, append_nil] at hcovers
  have hsteps := h.steps hret (hcovers.here b (.head _)) fun pf hpf => hcovers.nested (.head _) hpf
  exact hsteps.lastCall_eq fun _ b' hb' c hc heq => hhost (heq ▸ mem_map_of_mem (hb' c hc))

mutual

theorem BranchesRun.keeps {bs : List (ResolvedBranch σ)} {host : Nat} {hr : Option FilterResults}
    {ctx ctx' : HttpFilterContext σ} {r : Except Abort BranchOutcome} : BranchesRun host bs hr ctx ctx' r →
      Returned host ctx.log → host ∉ branchFilterIds bs → (∀ pf ∈ branchSubfilters bs, Isolated pf) →
      Consulting host bs hr ctx → HostDecides ctx'.log ∧
        ∀ o, r = .ok o → mapNestedOutcome o = none → ctx'.exchange.filterResults = .empty
  | .nil, _, _, _, h => ⟨h.decides, fun _ _ _ => rfl⟩
  | .failed hb, _, _, hiso, h =>
    ⟨(hb.keeps (fun pf hpf => hiso pf (subfilters_filters_subset (.head _) hpf)) h (.head _)).1, nofun⟩
  | .done hb, _, _, hiso, h => by
    obtain ⟨hdecides, -, hdone⟩ :=
      hb.keeps (fun pf hpf => hiso pf (subfilters_filters_subset (.head _) hpf)) h (.head _)
    refine ⟨hdecides, fun o ho hnone => ?_⟩
    cases ho
    exact hdone _ rfl hnone
  | .next hb hrest, hret, hhost, hiso, h => by
    rw [branchFilterIds, branchSubfilters_cons, map_append] at hhost
    obtain ⟨hdecides, hnext, -⟩ :=
      hb.keeps (fun pf hpf => hiso pf (subfilters_filters_subset (.head _) hpf)) h (.head _)
    obtain ⟨hresults, hkept⟩ := hnext _ rfl
    obtain ⟨before, hcall, hbefore⟩ := h.call
    have hlast := hb.lastCall_eq hret fun hm => hhost (mem_append_left _ hm)
    exact hrest.keeps (hret.mono (hb.log_mono hret)) (fun hm => hhost (mem_append_right _ hm))
      (fun pf hpf => hiso pf (branchSubfilters_subset_cons hpf))
      ⟨hdecides, ⟨before, by rw [hlast, hcall, hresults], fun b' hb' => hbefore b' (.tail _ hb')⟩,
        hkept.noEntries (h.nested.mono branchSubfilters_subset_cons)⟩

theorem BranchRun.keeps {b : ResolvedBranch σ} {host : Nat} {bs : List (ResolvedBranch σ)} {hr : Option FilterResults}
    {ctx ctx' : HttpFilterContext σ} {r : Except Abort BranchFlow} (hrun : BranchRun host b hr ctx ctx' r)
    (hiso : ∀ pf ∈ subfilters b.filters, Isolated pf) (h : Consulting host bs hr ctx)
    (hb : b ∈ bs) : HostDecides ctx'.log ∧
      (∀ hr', r = .ok (.next hr') → hr'.getD ctx'.exchange.filterResults = hr.getD ctx.exchange.filterResults ∧
        KeptOrCleared ctx ctx') ∧
      ∀ o, r = .ok (.done o) → mapNestedOutcome o = none → ctx'.exchange.filterResults = .empty := by
  have hdecides₁ : HostDecides (decideBranch host b.head hr ctx).log := h.decides.record (h.decided hb)
  have hchecked : ∀ {ctx₁ granted}, checkReentranceLimit host b.head (decideBranch host b.head hr ctx) = (ctx₁, granted) →
      HostDecides ctx₁.log ∧ ctx₁.exchange.filterResults = ctx.exchange.filterResults := by
    intro ctx₁ granted hcheck
    have hkeeps := checkReentranceLimit_keeps host b.head hdecides₁
    rw [hcheck] at hkeeps
    exact hkeeps
  -- the chain finds the results of the enclosing hosts, none of which its own hosts consult
  have hstart : ∀ {ctx₁}, checkReentranceLimit host b.head (decideBranch host b.head hr ctx) = (ctx₁, .ok true) →
      HostDecides (ensureBranchTraceContext b.filters ctx₁).log ∧
        (ensureBranchTraceContext b.filters ctx₁).exchange.filterResults = ctx.exchange.filterResults := by
    intro ctx₁ hcheck
    obtain ⟨hdecides₂, hresults₂⟩ := hchecked hcheck
    obtain ⟨hdecides₃, hresults₃⟩ := ensureBranchTraceContext_keeps b.filters hdecides₂
    exact ⟨hdecides₃, hresults₃.trans hresults₂⟩
  have hnested : NoEntries (subfilters b.filters) ctx.exchange.filterResults := h.nested.mono (subfilters_filters_subset hb)
  match hrun with
  | .passed _ =>
    refine ⟨hdecides₁, fun hr' hnext => ?_, nofun⟩
    cases hnext
    exact ⟨rfl, .inl rfl⟩
  | .overflowed hcheck => exact ⟨(hchecked hcheck).1, nofun, nofun⟩
  | .refused hcheck =>
    obtain ⟨hdecides, hresults⟩ := hchecked hcheck
    refine ⟨hdecides, fun hr' hnext => ?_, nofun⟩
    cases hnext
    exact ⟨by rw [hresults], .inl hresults⟩
  | .aborted hcheck hchain =>
    obtain ⟨hdecides, hresults⟩ := hstart hcheck
    exact ⟨(hchain.keeps hiso (hresults.symm ▸ hnested) hdecides).1, nofun, nofun⟩
  | .ran hcheck hchain =>
    rename_i ctx₁ ctx₂ action
    obtain ⟨hdecides, hresults⟩ := hstart hcheck
    obtain ⟨hdecides', hkept⟩ := hchain.keeps hiso (hresults.symm ▸ hnested) hdecides
    obtain ⟨hlog, hnext, hdone⟩ := rejoinAfter_keeps b.head (hr.getD ctx.exchange.filterResults) ctx₂ action
    refine ⟨by rw [hlog]; exact hdecides', fun hr' heq => ?_, fun o heq => hdone o (Except.ok.inj heq)⟩
    obtain ⟨hgo, rfl, hsame⟩ := hnext hr' (Except.ok.inj heq)
    rw [hsame]
    exact ⟨rfl, KeptOrCleared.trans (.inl hresults) (hkept action rfl hgo)⟩

theorem ChainRun.keeps {pfs : List (PipelineFilter σ)} {ctx ctx' : HttpFilterContext σ}
    {r : Except Abort FilterAction} : ChainRun pfs ctx ctx' r →
      (∀ pf ∈ subfilters pfs, Isolated pf) → NoEntries (subfilters pfs) ctx.exchange.filterResults →
      HostDecides ctx.log → HostDecides ctx'.log ∧ ∀ action, r = .ok action → action.stops = false → KeptOrCleared ctx ctx'
  | .nil, _, _, h => ⟨h, fun _ _ _ => .inl rfl⟩
  | .failed hpf, hiso, hnone, h => by
    rw [subfilters] at hiso hnone
    exact ⟨(hpf.keeps (fun p hp => hiso p (mem_append_left _ hp)) (hnone.mono (subset_append_left _ _)) h).1,
      nofun⟩
  | .stopped hpf, hiso, hnone, h => by
    rw [subfilters] at hiso hnone
    obtain ⟨hdecides, -, hstops⟩ :=
      hpf.keeps (fun p hp => hiso p (mem_append_left _ hp)) (hnone.mono (subset_append_left _ _)) h
    refine ⟨hdecides, fun action' heq hgo => ?_⟩
    cases heq
    rw [hstops _ rfl] at hgo
    cases hgo
  | .next hpf hrest, hiso, hnone, h => by
    rw [subfilters] at hiso hnone
    obtain ⟨hdecides, hkept, -⟩ :=
      hpf.keeps (fun p hp => hiso p (mem_append_left _ hp)) (hnone.mono (subset_append_left _ _)) h
    obtain ⟨hdecides', hkept'⟩ := hrest.keeps (fun p hp => hiso p (mem_append_right _ hp))
      ((hkept rfl).noEntries (hnone.mono (subset_append_right _ _))) hdecides
    exact ⟨hdecides', fun action heq hgo => (hkept rfl).trans (hkept' action heq hgo)⟩

theorem FilterRun.keeps {pf : PipelineFilter σ} {ctx ctx' : HttpFilterContext σ}
    {r : Except Abort (Option FilterAction)} (hrun : FilterRun pf ctx ctx' r)
    (hiso : ∀ p ∈ pf.subfilters, Isolated p) (hnone : NoEntries pf.subfilters ctx.exchange.filterResults)
    (h : HostDecides ctx.log) : HostDecides ctx'.log ∧ (r = .ok none → KeptOrCleared ctx ctx') ∧
      ∀ action, r = .ok (some action) → action.stops = true := by
  rw [PipelineFilter.subfilters_eq] at hiso hnone
  have hself := hiso _ (.head _)
  obtain ⟨hdecides₁, hresults₁⟩ := conditionsAllow_keeps pf.head h
  have hdecides₂ : ∀ f, HostDecides (enterInBranch pf.head f ctx).log := fun f => by
    rw [enterInBranch, calledInBranch_log]
    exact Throughout.concat hdecides₁ trivial
  -- what the hook found under the names its own branches and those below consult
  have hbefore : NoEntries (pf :: branchSubfilters pf.branches) (conditionsAllow pf.head ctx).1.exchange.filterResults :=
    hresults₁.symm ▸ hnone
  have hconsult : ∀ {f}, pf.head.filter = .http f →
      Consulting pf.head.filterId pf.branches none (enterInBranch pf.head f ctx) := fun {f} hf => by
    refine ⟨hdecides₂ f, ⟨_, ?_, hbefore _ (.head _)⟩, ?_⟩
    · rw [enterInBranch, calledInBranch_log, calledInBranch_exchange]
      exact lastCall_callEvent pf.head f
    · rw [enterInBranch, calledInBranch_exchange]
      exact hself.called hf (hbefore.mono (subset_cons_self _ _))
  match hrun with
  | .tcp _ => exact ⟨h, fun _ => .inl rfl, nofun⟩
  | .skipped _ _ => exact ⟨hdecides₁, fun _ => .inl hresults₁, nofun⟩
  | .failed _ _ => exact ⟨hdecides₂ _, nofun, nofun⟩
  | .answered _ hout =>
    refine ⟨hdecides₂ _, nofun, fun action heq => ?_⟩
    cases heq
    exact branchRequestOutcome_stops hout
  | .aborted hf hout hbranches =>
    exact ⟨(hbranches.keeps (returned_calledInBranch hout) hself.distinct
      (fun p hp => hiso p (.tail _ hp)) (hconsult hf)).1, nofun, nofun⟩
  | .branched hf hout hbranches =>
    obtain ⟨hdecides, hcleared⟩ := hbranches.keeps (returned_calledInBranch hout) hself.distinct
      (fun p hp => hiso p (.tail _ hp)) (hconsult hf)
    exact ⟨hdecides, fun heq => .inr (hcleared _ rfl (Except.ok.inj heq)),
      fun action heq => mapNestedOutcome_stops (Except.ok.inj heq)⟩

end

/-! ## The request loop -/

section

variable {pfs : List (PipelineFilter σ)}

/-- No host writes under the name that the branches of a host inside its own branches consult. -/
def EnclosingHostsLeaveEntries (pfs : List (PipelineFilter σ)) : Prop :=
  ∀ pf ∈ subfilters pfs, ∀ f, pf.head.filter = .http f → ∀ c ∈ branchSubfilters pf.branches,
    ∀ b ∈ c.branches, ∀ cond, b.head.condition = some cond → LeavesEntry f cond.filterName

/-- Between passes no results are left, neither in the map nor held aside. -/
structure Settled (s : RequestState σ) : Prop where
  decides : HostDecides s.ctx.log
  results : s.ctx.exchange.filterResults = .empty
  preRead : s.preRead = .empty

theorem Settled.enterFilter {s : RequestState σ} (h : Settled s) (pf : FilterHead σ) (f : HttpFilter σ) :
    Settled (Praxis.Pipeline.enterFilter pf f s) := by
  obtain ⟨hdecides, hresults⟩ := conditionsAllow_keeps pf h.decides
  unfold Praxis.Pipeline.enterFilter restorePreRead
  rw [show s.preRead.get f.name = none by rw [h.preRead]; rfl]
  exact ⟨hdecides, hresults.trans h.results, h.preRead⟩

theorem HostDecides.calledAtTop {s : RequestState σ} (h : Settled s) (pf : FilterHead σ) (f : HttpFilter σ) :
    HostDecides (Praxis.Pipeline.calledAtTop pf f s).log :=
  Throughout.concat (h.enterFilter pf f).decides trivial

theorem topPass_settled (hres : Resolved pfs) (hleave : EnclosingHostsLeaveEntries pfs) {s : RequestState σ}
    {p : Pass (RequestState σ) (RequestEnd σ)} (hp : TopPass pfs s p) (h : Settled s) :
    HostDecides (passCtx p).log ∧ ∀ s', p = .again s' → Settled s' := by
  have hiso : ∀ pf ∈ subfilters pfs, Isolated pf := fun pf hpf => ⟨not_below_self hres.ids hpf, hleave pf hpf⟩
  cases hp with
  | finished hnone => exact ⟨h.decides, fun _ hs' => by cases hs'⟩
  | tcp hpf hf => exact ⟨h.decides, fun _ hs' => by cases hs'; exact ⟨h.decides, h.results, h.preRead⟩⟩
  | skipped hpf hf hc =>
    rename_i pf f
    have hdecides : HostDecides (s.ctx.record (.evaluated pf.head.filterId pf.head.conditions)).log :=
      h.decides.record trivial
    exact ⟨hdecides, fun _ hs' => by cases hs'; exact ⟨hdecides, h.results, h.preRead⟩⟩
  | failed | answered => exact ⟨HostDecides.calledAtTop h _ _, fun _ hs' => by cases hs'⟩
  | branched hpf hf hfail hrun =>
    rename_i pf f ctx' o
    have hmem : pf ∈ subfilters pfs := mem_subfilters (mem_of_getElem? hpf)
    have henter := h.enterFilter pf.head f
    have hconsult : Consulting pf.head.filterId pf.branches none (markTopLevel (calledAtTop pf.head f s) s.idx) := by
      refine ⟨HostDecides.calledAtTop h pf.head f, ⟨_, lastCall_callEvent pf.head f, fun _ _ _ _ => ?_⟩, ?_⟩
      · rw [henter.results]
        rfl
      · refine (hiso pf hmem).called hf ?_
        rw [henter.results]
        exact noEntries_empty _
    obtain ⟨hdecides, hcleared⟩ := hrun.keeps (returned_calledAtTop hfail) (hiso pf hmem).distinct
      (fun c hc => hiso c (subfilters_trans hmem hc)) hconsult
    rw [passCtx_afterBranches]
    refine ⟨hdecides, fun s' hs' => ?_⟩
    obtain ⟨hctx, hpre, hmove⟩ := afterBranches_again hs'
    refine ⟨hctx ▸ hdecides, ?_, hpre.trans henter.preRead⟩
    rw [hctx]
    rcases hmove with ⟨ho, -⟩ | ⟨t, ho, -⟩ | ⟨t, ho, -⟩ <;> exact hcleared _ ho rfl

variable {ctx : HttpFilterContext σ}

theorem requestStart_settled (hlog : ctx.log = []) (hempty : ctx.exchange.filterResults = .empty) :
    Settled (requestStart pfs ctx) := by
  obtain ⟨hdecides, hresults⟩ : HostDecides (enablesTracePropagation pfs ctx).1.log ∧
      (enablesTracePropagation pfs ctx).1.exchange.filterResults = ctx.exchange.filterResults :=
    enablesTracePropagation_rule (P := fun c => HostDecides c.log ∧ c.exchange.filterResults = ctx.exchange.filterResults)
      (fun _ _ _ _ h => ⟨h.1.record trivial, h.2⟩) ⟨hlog ▸ Throughout.nil, rfl⟩
  unfold requestStart
  dsimp only
  split
  · exact ⟨hdecides, rfl, hresults.trans hempty⟩
  · exact ⟨hdecides, rfl, hresults.trans hempty⟩

/-- Along a run that starts with no results, every decision is the host's. -/
theorem executeHttpRequest_hostDecides (hres : Resolved pfs) (hleave : EnclosingHostsLeaveEntries pfs) {fuel : Nat}
    {r : RequestEnd σ} (hempty : ctx.exchange.filterResults = .empty)
    (hrun : executeHttpRequest pfs fuel { ctx with log := [] } = some r) : HostDecides r.1.log := by
  have hpass : ∀ s p, requestPass pfs s = p → Settled s → HostDecides (passCtx p).log ∧ ∀ s', p = .again s' → Settled s' := by
    intro s p hp h
    have hcases := requestPass_cases pfs s
    rw [hp] at hcases
    exact topPass_settled hres hleave hcases h
  have hstart : Settled (requestStart pfs { ctx with log := [] }) := requestStart_settled rfl hempty
  exact loop_inv (I := Settled) (Q := fun r : RequestEnd σ => HostDecides r.1.log)
    (fun s s' h hp => (hpass s _ hp h).2 s' rfl) (fun s r h hp => (hpass s _ hp h).1) hstart hrun

/-- Branch decisions depend only on the host. Where no enclosing host writes under a name that a
nested host's branches consult, a run that starts with no results decides every branch on what
the latest call of its host wrote, and two such runs that agree on that agree on the decision. -/
theorem decisions_by_host {reg : FilterRegistry σ κ} {chains : String → Option (List (FilterEntry κ))}
    {entries : List (FilterEntry κ)} (hbuild : buildWithChains reg chains entries = .ok pfs)
    (hleave : EnclosingHostsLeaveEntries pfs) {fuel : Nat} {ctx : HttpFilterContext σ} {r : RequestEnd σ}
    (hempty : ctx.exchange.filterResults = .empty)
    (hrun : executeHttpRequest pfs fuel { ctx with log := [] } = some r) :
    HostDecides r.1.log ∧
      ∀ {fuel' : Nat} {ctx' : HttpFilterContext σ} {r' : RequestEnd σ}, ctx'.exchange.filterResults = .empty →
        executeHttpRequest pfs fuel' { ctx' with log := [] } = some r' →
        ∀ pre pre' post post' host b entry entry' fires fires',
          r.1.log = pre ++ .decided host b entry fires :: post →
          r'.1.log = pre' ++ .decided host b entry' fires' :: post' →
          ownResults host b pre = ownResults host b pre' → fires = fires' := by
  have hres := buildWithChains_resolved hbuild
  have hdecides := executeHttpRequest_hostDecides hres hleave hempty hrun
  refine ⟨hdecides, fun hempty' hrun' pre pre' post post' host b entry entry' fires fires' hlog hlog' hown => ?_⟩
  obtain ⟨-, rfl, rfl⟩ := hdecides _ _ _ hlog
  obtain ⟨-, rfl, rfl⟩ := executeHttpRequest_hostDecides hres hleave hempty' hrun' _ _ _ hlog'
  rw [hown]

end

/-! ## A host of the same type inside -/

instance (pre : List Event) (e : Event) : Decidable (DecidedByHost pre e) :=
  match e with
  | .decided host b entry fires =>
    inferInstanceAs (Decidable ((lastCall host pre).isSome ∧ entry = ownResults host b pre ∧ fires = firesOn b entry))
  | .evaluated _ _ => .isTrue trivial
  | .called _ _ _ _ _ => .isTrue trivial
  | .counted _ _ _ => .isTrue trivial
  | .considered _ => .isTrue trivial

/-- `write_result` of the guardrails filter: a `blocked` entry is not replaced by `passed`. -/
def writeGuardrailsResult (status : String) (ex : Exchange Unit) : Exchange Unit :=
  let alreadyBlocked := (ex.filterResults.get "guardrails").bind (·.get "status") == some "blocked"
  if status == "passed" && alreadyBlocked then ex
  else { ex with filterResults := ex.filterResults.insert "guardrails" ⟨[("status", status)]⟩ }

/-- A guardrails filter whose rules come to `status` and that does not reject. -/
def guardrails (status : String) : HttpFilter Unit :=
  { HttpFilter.noop "guardrails" with onRequest := fun _ ex => (writeGuardrailsResult status ex, .ok .proceed) }

/-- A registry whose guardrails filters are configured with what their rules come to. -/
def guardrailsRegistry : FilterRegistry Unit String :=
  { create := fun name config _ budget =>
      .ok (if name = "guardrails" then .http (guardrails config) else .http (.noop name), budget)
    isSecurityFilter := fun _ => false }

def configuredEntry (filterType config : String) : EntryHead String :=
  { filterType := filterType, config := config, conditions := [], name := none, responseConditions := []
    failureMode := .closed }

def onStatus (filterType status : String) : BranchCondition := ⟨filterType, "status", .exact status⟩

/-- A blocked request goes through a second guardrails filter, which has a branch for what it
blocks itself. -/
def nestedGuardrailsEntries : List (FilterEntry String) :=
  [.mk (configuredEntry "guardrails" "blocked") (some [.mk
     { name := "suspicious", maxIterations := none, onResult := some (onStatus "guardrails" "blocked"), rejoin := "next" }
     [.inline "second_look" [.mk (configuredEntry "guardrails" "passed") (some [.mk
       { name := "deny", maxIterations := none, onResult := some (onStatus "guardrails" "blocked"), rejoin := "next" }
       [.inline "deny_chain" [.mk (configuredEntry "access_log" "") none]]])]]])]

/-- What the build makes of `nestedGuardrailsEntries`. -/
def nestedGuardrailsFilters : List (PipelineFilter Unit) :=
  [.mk (.plain 0 none (.http (guardrails "blocked")))
     [.mk { name := "suspicious", condition := some ⟨"guardrails", "status", .exact "blocked"⟩, maxIterations := none,
            rejoin := .next }
       [.mk (.plain 1 none (.http (guardrails "passed")))
         [.mk { name := "deny", condition := some ⟨"guardrails", "status", .exact "blocked"⟩, maxIterations := none,
                rejoin := .next }
           [.mk (.plain 2 none (.http (.noop "access_log"))) []]]]]]

/-- The inner filter passes the request and writes nothing, yet its branch fires on the entry of
the filter around it. -/
theorem nestedGuardrailsFilters_leak :
    buildWithChains guardrailsRegistry (fun _ => none) nestedGuardrailsEntries = .ok nestedGuardrailsFilters ∧
    ∃ r, executeHttpRequest nestedGuardrailsFilters 2
        { fresh ⟨"GET", "/", []⟩ () with log := [] } = some r ∧ ¬ HostDecides r.1.log := by
  refine ⟨rfl, ?_⟩
  have hruns : (executeHttpRequest nestedGuardrailsFilters 2
      { fresh ⟨"GET", "/", []⟩ () with log := [] }).any (fun r =>
        (r.1.log[3]?).any fun e => !decide (DecidedByHost (r.1.log.take 3) e)) = true := by decide +kernel
  obtain ⟨r, hr, hlog⟩ := (any_eq_true _ _).1 hruns
  obtain ⟨e, he, hleak⟩ := (any_eq_true _ _).1 hlog
  refine ⟨r, hr, fun h => ?_⟩
  rw [decide_eq_true (h.take he)] at hleak
  cases hleak

/-- The same with a filter of another type inside. -/
def separateEntries : List (FilterEntry String) :=
  [.mk (configuredEntry "guardrails" "blocked") (some [.mk
     { name := "suspicious", maxIterations := none, onResult := some (onStatus "guardrails" "blocked"), rejoin := "next" }
     [.inline "second_look" [.mk (configuredEntry "json_rpc" "") (some [.mk
       { name := "deny", maxIterations := none, onResult := some (onStatus "json_rpc" "blocked"), rejoin := "next" }
       [.inline "deny_chain" [.mk (configuredEntry "access_log" "") none]]])]]])]

/-- What the build makes of `separateEntries`. -/
def separateFilters : List (PipelineFilter Unit) :=
  [.mk (.plain 0 none (.http (guardrails "blocked")))
     [.mk { name := "suspicious", condition := some ⟨"guardrails", "status", .exact "blocked"⟩, maxIterations := none,
            rejoin := .next }
       [.mk (.plain 1 none (.http (.noop "json_rpc")))
         [.mk { name := "deny", condition := some ⟨"json_rpc", "status", .exact "blocked"⟩, maxIterations := none,
                rejoin := .next }
           [.mk (.plain 2 none (.http (.noop "access_log"))) []]]]]]

theorem guardrails_leavesEntry (status : String) {name : String} (h : name ≠ "guardrails") :
    LeavesEntry (guardrails status) name := by
  intro books ex
  show (writeGuardrailsResult status ex).filterResults.get name = _
  unfold writeGuardrailsResult
  dsimp only
  split
  · rfl
  · exact FilterResults.get_insert_of_ne h _ _

theorem separateFilters_leaveEntries : EnclosingHostsLeaveEntries separateFilters := by
  intro pf hpf f hf c hc b hb cond hcond
  simp [separateFilters] at hpf
  rcases hpf with rfl | rfl | rfl
  · -- the guardrails filter, around the other two
    cases hf
    simp at hc
    rcases hc with rfl | rfl
    · simp at hb
      subst hb
      cases hcond
      exact guardrails_leavesEntry "blocked" (by decide)
    · cases hb
  · simp at hc
    subst hc
    cases hb
  · cases hc

theorem separateFilters_decide :
    ∃ r, executeHttpRequest separateFilters 2
        { fresh ⟨"GET", "/", []⟩ () with log := [] } = some r ∧ HostDecides r.1.log := by
  obtain ⟨r, hr, -⟩ := (any_eq_true (fun _ => true) (executeHttpRequest separateFilters 2
    { fresh ⟨"GET", "/", []⟩ () with log := [] })).1 (by decide +kernel)
  exact ⟨r, hr, (decisions_by_host
    (show buildWithChains guardrailsRegistry (fun _ => none) separateEntries = .ok separateFilters from rfl)
    separateFilters_leaveEntries rfl hr).1⟩

end Praxis.Pipeline
