/-
The iteration counters of a request. They are kept by branch name: the checks of all branches of one name
count 0, 1, 2 and so on, one after the other, whichever instance is checked. A branch is therefore refused
once the instances of its name fired as often as it may, which is its own doing if the name is its own.
-/
import Praxis.Pipeline.Termination

namespace Praxis.Pipeline

open HttpFilterContext List Option Praxis.Lib

variable {σ : Type}

/-! ## Checks -/

/-- The counter of a check of a branch of that name that did not overflow. -/
def Event.checkOf (name : String) : Event → Option Nat
  | .counted _ b count => if b.name = name ∧ count + 1 < 2 ^ 32 then some count else none
  | _ => none

/-- The check lets the branch at the host fire. -/
def Event.fires (host : Nat) (b : BranchHead) : Event → Bool
  | .counted host' b' count =>
    host' == host && b' == b && decide (count + 1 < 2 ^ 32) && b.maxIterations.all fun max => decide (count + 1 ≤ max)
  | _ => false

/-- The check refuses the branch at the host. -/
def Event.refuses (host : Nat) (b : BranchHead) : Event → Bool
  | .counted host' b' count =>
    host' == host && b' == b && decide (count + 1 < 2 ^ 32) && b.maxIterations.any fun max => decide (max < count + 1)
  | _ => false

/-- The instances of branches in a tree: the id of the host, and the branch. -/
def branchSites (fs : List (PipelineFilter σ)) : List (Nat × BranchHead) :=
  (subfilters fs).flatMap fun pf => pf.branches.map fun b => (pf.head.filterId, b.head)

def reEnterSites (fs : List (PipelineFilter σ)) : List (Nat × BranchHead) :=
  (branchSites fs).filter fun site => site.2.rejoin.isReEnter

/-! ## Steps of the evaluator that count nothing -/

/-- The counters are as they were, and no check was added to the log. -/
structure Uncounted (ctx ctx' : HttpFilterContext σ) : Prop where
  iterations : ctx'.books.branchIterations = ctx.books.branchIterations
  log : ∃ added, ctx'.log = ctx.log ++ added ∧ ∀ host b count, Event.counted host b count ∉ added

variable {ctx ctx' : HttpFilterContext σ} {fs : List (PipelineFilter σ)} {n : Nat}

theorem Quiet.uncounted (h : Quiet ctx ctx') : Uncounted ctx ctx' := by
  obtain ⟨added, hlog, hquiet⟩ := h.log
  refine ⟨h.iterations, added, hlog, fun host b count hmem => ?_⟩
  cases hquiet _ hmem

theorem uncounted_callOnRequest (pf : FilterHead σ) (f : HttpFilter σ) (ctx : HttpFilterContext σ) :
    Uncounted ctx (callOnRequest pf f ctx).1 := by
  refine ⟨rfl, [_], callOnRequest_log pf f ctx, fun host b count hmem => ?_⟩
  cases mem_singleton.1 hmem

/-- The invariant rule for the counters: only the check of a branch of the tree counts. -/
theorem executeHttpRequest_counts {I : HttpFilterContext σ → Prop} (hquiet : ∀ ctx ctx', Uncounted ctx ctx' → I ctx → I ctx')
    (hcheck : ∀ host b ctx, (host, b) ∈ branchSites fs → I ctx → I (checkReentranceLimit host b ctx).1) {fuel : Nat}
    {r : RequestEnd σ} (hI : I ctx) (hrun : executeHttpRequest fs fuel ctx = some r) : I r.1 := by
  refine executeHttpRequest_rule (fun _ _ h => hquiet _ _ h.uncounted)
    (fun pf _ f _ ctx => hquiet _ _ (uncounted_callOnRequest pf.head f ctx)) ?_ hI hrun
  rintro _ b ⟨q, hq, rfl, hb⟩ ctx
  exact hcheck _ _ ctx (mem_flatMap.2 ⟨q, hq, mem_map.2 ⟨b, hb, rfl⟩⟩)

/-! ## Who is refused -/

/-- The checks of one name count 0, 1, 2 and so on, and the counter is their number. -/
structure Tallied (fs : List (PipelineFilter σ)) (ctx : HttpFilterContext σ) : Prop where
  counts : ∀ name, ctx.log.filterMap (·.checkOf name) = range (ctx.iterations name)
  sites : ∀ host b count, Event.counted host b count ∈ ctx.log → (host, b) ∈ reEnterSites fs

theorem Tallied.uncounted (hu : Uncounted ctx ctx') (h : Tallied fs ctx) : Tallied fs ctx' := by
  obtain ⟨added, hlog, hnot⟩ := hu.log
  have hadded : ∀ name, added.filterMap (·.checkOf name) = [] := by
    intro name
    refine filterMap_eq_nil_iff.2 fun e he => ?_
    cases e with
    | counted host b count => exact absurd he (hnot host b count)
    | evaluated | called | decided | considered => rfl
  constructor
  · intro name
    rw [hlog, filterMap_append, hadded, append_nil, h.counts, iterations,
      iterations, hu.iterations]
  · intro host b count hmem
    rw [hlog] at hmem
    rcases mem_append.1 hmem with hmem | hmem
    · exact h.sites host b count hmem
    · exact absurd hmem (hnot host b count)

theorem Tallied.check {host : Nat} {b : BranchHead} (hsite : (host, b) ∈ branchSites fs) (h : Tallied fs ctx) :
    Tallied fs (checkReentranceLimit host b ctx).1 := by
  unfold checkReentranceLimit
  split
  · rename_i target hrejoin
    have hsites : ∀ host' b' count', Event.counted host' b' count' ∈ ctx.log ++ [.counted host b (ctx.iterations b.name)] →
        (host', b') ∈ reEnterSites fs := by
      intro host' b' count' hmem
      rcases mem_append.1 hmem with hmem | hmem
      · exact h.sites host' b' count' hmem
      · cases mem_singleton.1 hmem
        refine mem_filter.2 ⟨hsite, ?_⟩
        rw [hrejoin]
        rfl
    dsimp only
    split
    · rename_i hsmall
      refine ⟨fun name => ?_, hsites⟩
      show (ctx.log ++ [Event.counted host b (ctx.iterations b.name)]).filterMap _ =
        range (Function.update ctx.books.branchIterations b.name _ name)
      rw [filterMap_append, h.counts]
      by_cases hname : b.name = name
      · subst hname
        have hsome : Event.checkOf b.name (.counted host b (ctx.iterations b.name)) = some (ctx.iterations b.name) :=
          if_pos ⟨rfl, hsmall⟩
        rw [Function.update_self, range_succ, filterMap_cons, hsome]
        rfl
      · have hnone : Event.checkOf name (.counted host b (ctx.iterations b.name)) = none := if_neg fun h => hname h.1
        rw [Function.update_of_ne (Ne.symm hname), filterMap_cons, hnone, filterMap_nil, append_nil]
        rfl
    · rename_i hlarge
      refine ⟨fun name => ?_, hsites⟩
      show (ctx.log ++ [Event.counted host b (ctx.iterations b.name)]).filterMap _ = range (ctx.iterations name)
      have hnone : Event.checkOf name (.counted host b (ctx.iterations b.name)) = none := if_neg fun h => hlarge h.2
      rw [filterMap_append, h.counts, filterMap_cons, hnone, filterMap_nil, append_nil]
  · exact h

theorem range_split {xs ys : List Nat} {a : Nat} (h : xs ++ a :: ys = List.range n) : xs = List.range a := by
  have ha : a = xs.length := by
    have hget : (List.range n)[xs.length]? = some a := by rw [← h]; simp
    simpa using (List.getElem?_eq_some_iff.1 hget).2.symm
  have hn : xs.length ≤ n := by
    have hlength := congrArg List.length h
    simp at hlength
    omega
  calc xs = (xs ++ a :: ys).take xs.length := List.take_left.symm
    _ = List.range a := by rw [h, List.take_range, Nat.min_eq_left hn, ha]

theorem countP_range_lt {limit : Nat} (h : limit ≤ n) : (range n).countP (fun c => decide (c < limit)) = limit := by
  obtain ⟨k, rfl⟩ := Nat.exists_eq_add_of_le h
  have hfirst : (range limit).countP (fun c => decide (c < limit)) = limit := by
    rw [countP_eq_length.2 fun c hc => by simpa using hc, length_range]
  have hrest : ((range k).map (limit + ·)).countP (fun c => decide (c < limit)) = 0 :=
    countP_eq_zero.2 fun c hc => by
      obtain ⟨d, -, rfl⟩ := mem_map.1 hc
      simp
  rw [range_add, countP_append, hfirst, hrest]
  rfl

/-- If no two `ReEnter` branches of the resolved pipeline share a name, a branch whose conditions hold is
refused only after it fired as often as it may. -/
theorem refused_after_firing {fs : List (PipelineFilter σ)}
    (hnames : ((reEnterSites fs).map fun site => site.2.name).Nodup) {fuel : Nat} {ctx : HttpFilterContext σ}
    {r : RequestEnd σ} (hlog : ctx.log = []) (hiterations : ∀ name, ctx.iterations name = 0)
    (hrun : executeHttpRequest fs fuel ctx = some r) {pre post : List Event} {e : Event}
    (hsplit : r.1.log = pre ++ e :: post) {host : Nat} {b : BranchHead} (hrefuses : e.refuses host b = true) {limit : Nat}
    (hlimit : b.maxIterations = some limit) : pre.countP (·.fires host b) = limit := by
  have htallied : Tallied fs r.1 := by
    refine executeHttpRequest_counts (I := Tallied fs) (fun _ _ hu h => h.uncounted hu) (fun _ _ _ hsite h => h.check hsite)
      ⟨fun name => ?_, ?_⟩ hrun
    · rw [hlog, hiterations]
      rfl
    · rw [hlog]
      exact fun _ _ _ hmem => absurd hmem not_mem_nil
  -- The refused check is the one with the counter `count`, and the checks before it count up to there.
  obtain ⟨count, rfl, hsmall, hover⟩ : ∃ count, e = .counted host b count ∧ count + 1 < 2 ^ 32 ∧ limit < count + 1 := by
    cases e with
    | counted host' b' count =>
      simp only [Event.refuses, hlimit, Bool.and_eq_true, beq_iff_eq, decide_eq_true_eq, any_some] at hrefuses
      obtain ⟨⟨⟨rfl, rfl⟩, hsmall⟩, hover⟩ := hrefuses
      exact ⟨count, rfl, hsmall, hover⟩
    | evaluated | called | decided | considered => cases hrefuses
  have hsite : (host, b) ∈ reEnterSites fs :=
    htallied.sites host b count (by rw [hsplit]; exact mem_append_right _ (.head _))
  have hpre : pre.filterMap (·.checkOf b.name) = range count := by
    have hcounts := htallied.counts b.name
    have hcheck : Event.checkOf b.name (.counted host b count) = some count := if_pos ⟨rfl, hsmall⟩
    rw [hsplit, filterMap_append, filterMap_cons, hcheck] at hcounts
    exact range_split hcounts
  -- Every check of that name was of this instance.
  have hfires : ∀ e ∈ pre, (Event.fires host b e = true) ↔
      (((Event.checkOf b.name e).map fun c => decide (c < limit)).getD false = true) := by
    intro e he
    have hmem : e ∈ r.1.log := by rw [hsplit]; exact mem_append_left _ he
    cases e with
    | counted host' b' count' =>
      by_cases hname : b'.name = b.name
      · have hsame : (host', b') = (host, b) :=
          inj_on_of_nodup_map hnames (htallied.sites host' b' count' hmem) hsite hname
        cases hsame
        by_cases hsmall' : count' + 1 < 2 ^ 32
        · have hcheck : Event.checkOf b.name (.counted host b count') = some count' := if_pos ⟨rfl, hsmall'⟩
          simp only [hcheck, Event.fires, beq_self_eq_true, decide_eq_true hsmall', hlimit, all_some, map_some,
            getD_some, Bool.true_and, decide_eq_true_eq, Nat.succ_le_iff]
        · have hcheck : Event.checkOf b.name (.counted host b count') = none := if_neg fun h => hsmall' h.2
          simp only [hcheck, Event.fires, decide_eq_false hsmall', Bool.and_false, Bool.false_and, map_none, getD_none]
      · have hne : b' ≠ b := fun h => hname (congrArg BranchHead.name h)
        simp [Event.fires, Event.checkOf, hname, hne]
    | evaluated | called | decided | considered => simp [Event.fires, Event.checkOf]
  calc pre.countP (·.fires host b)
      = (pre.filterMap (·.checkOf b.name)).countP fun c => decide (c < limit) := by
        rw [countP_filterMap]
        exact countP_congr hfires
    _ = limit := by rw [hpre, countP_range_lt (Nat.lt_succ_iff.1 hover)]

/-- The pipeline of `reEnteringEntries`: the branch goes back twice, and is then refused. -/
theorem reEntering_refused : ∃ (r : RequestEnd Unit) (pre post : List Event) (e : Event) (b : BranchHead),
    executeHttpRequest reEnteringFilters 9 (.fresh ⟨"GET", "/", []⟩ ()) = some r ∧ r.1.log = pre ++ e :: post ∧
      e.refuses 1 b = true ∧ b.maxIterations = some 2 ∧ pre.countP (·.fires 1 b) = 2 := by
  let b : BranchHead := { name := "again", condition := none, maxIterations := some 2, rejoin := .reEnter 0 }
  have hsome : (executeHttpRequest reEnteringFilters 9 (.fresh ⟨"GET", "/", []⟩ ())).any fun r => r.1.log.any (·.refuses 1 b) := by
    decide +kernel
  obtain ⟨r, hrun, hrefused⟩ := (any_eq_true _ _).1 hsome
  obtain ⟨e, hmem, hrefuses⟩ := any_eq_true.1 hrefused
  obtain ⟨pre, post, hsplit⟩ := append_of_mem hmem
  exact ⟨r, pre, post, e, b, hrun, hsplit, hrefuses, rfl,
    refused_after_firing (by decide) rfl (fun _ => rfl) hrun hsplit hrefuses rfl⟩

/-- However many branches share its name, no branch at no host fires more often than it may. -/
theorem fires_within_limit (fs : List (PipelineFilter σ)) (fuel : Nat) (req : Request) (st : σ) (host : Nat) (b : BranchHead) :
    (executeHttpRequest fs fuel (.fresh req st)).all fun r =>
      b.maxIterations.all fun limit => decide (r.1.log.countP (·.fires host b) ≤ limit) := by
  refine (Option.all_eq_true ..).2 fun r hrun => (Option.all_eq_true ..).2 fun limit hlimit => ?_
  have htallied : Tallied fs r.1 :=
    executeHttpRequest_counts (I := Tallied fs) (fun _ _ hu h => h.uncounted hu) (fun _ _ _ hsite h => h.check hsite)
      ⟨fun _ => rfl, by simp [HttpFilterContext.fresh]⟩ hrun
  -- a check that lets the branch fire has a counter below the limit
  have hfires : ∀ e, Event.fires host b e → ((Event.checkOf b.name e).map fun c => decide (c < limit)).getD false := by
    intro e hfires
    cases e with
    | counted host' b' count =>
      simp only [Event.fires, hlimit, Bool.and_eq_true, beq_iff_eq, decide_eq_true_eq, all_some] at hfires
      obtain ⟨⟨⟨-, rfl⟩, hsmall⟩, hle⟩ := hfires
      rw [Event.checkOf, if_pos ⟨rfl, hsmall⟩]
      exact decide_eq_true hle
    | evaluated | called | decided | considered => cases hfires
  rw [decide_eq_true_eq]
  calc r.1.log.countP (·.fires host b)
      ≤ (r.1.log.filterMap (·.checkOf b.name)).countP fun c => decide (c < limit) := by
        rw [countP_filterMap]
        exact countP_mono_left fun e _ => hfires e
    _ ≤ limit := by
        rw [htallied.counts]
        exact (range_sublist.2 (le_max_left _ limit)).countP_le.trans_eq (countP_range_lt (le_max_right ..))

/-- A chain with a branch that goes back once. -/
def sharedChains : String → Option (List (FilterEntry Unit))
  | "shared" => some [.mk (.plain "access_log" (some "again_from")) (some [.mk
      { name := "again", maxIterations := some 1, onResult := none, rejoin := "again_from" }
      [.inline "again_chain" [.mk (.plain "headers" none) none]]])]
  | _ => none

/-- Two filters with a branch each, both of which run the chain. -/
def sharingEntries : List (FilterEntry Unit) :=
  ["first", "second"].map fun name => .mk (.plain "guardrails" none)
    (some [.mk { name, maxIterations := none, onResult := none, rejoin := "next" } [.named "shared"]])

def sharedBranch : BranchHead := { name := "again", condition := none, maxIterations := some 1, rejoin := .reEnter 0 }

/-- What the build makes of `sharingEntries`: two instances of the chain, at the filters 2 and 4. -/
def sharingFilters : List (PipelineFilter Unit) :=
  [("first", 0, 2), ("second", 1, 4)].map fun (name, host, id) => .mk (.plain host none (.http (.noop "guardrails")))
    [.mk { name, condition := none, maxIterations := none, rejoin := .next }
      [.mk (.plain id (some "again_from") (.http (.noop "access_log")))
        [.mk sharedBranch [.mk (.plain (id + 1) none (.http (.noop "headers"))) []]]]]

/-- The second instance is refused although it never fired: the first one used up the counter of their name. -/
theorem shared_chain_refused : ∃ (r : RequestEnd Unit) (pre post : List Event) (e : Event),
    buildWithChains noopRegistry sharedChains sharingEntries = .ok sharingFilters ∧
    executeHttpRequest sharingFilters 3 (.fresh ⟨"GET", "/", []⟩ ()) = some r ∧ r.1.log = pre ++ e :: post ∧
      (4, sharedBranch) ∈ reEnterSites sharingFilters ∧ e.refuses 4 sharedBranch = true ∧
      sharedBranch.maxIterations = some 1 ∧ pre.countP (·.fires 4 sharedBranch) = 0 := by
  have hsome : (executeHttpRequest sharingFilters 3 (.fresh ⟨"GET", "/", []⟩ ())).any fun r =>
      r.1.log.any (·.refuses 4 sharedBranch) && r.1.log.all (!·.fires 4 sharedBranch) := by decide +kernel
  obtain ⟨r, hrun, hlog⟩ := (any_eq_true _ _).1 hsome
  obtain ⟨hrefused, hnever⟩ := Bool.and_eq_true_iff.1 hlog
  obtain ⟨e, hmem, hrefuses⟩ := any_eq_true.1 hrefused
  obtain ⟨pre, post, hsplit⟩ := append_of_mem hmem
  refine ⟨r, pre, post, e, rfl, hrun, hsplit, by decide, hrefuses, rfl, countP_eq_zero.2 fun e' he' => ?_⟩
  have hnot := all_eq_true.1 hnever e' (by rw [hsplit]; exact mem_append_left _ he')
  simpa using hnot

end Praxis.Pipeline
