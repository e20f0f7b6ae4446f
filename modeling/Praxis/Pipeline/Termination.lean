/-
The request phase terminates. A backward jump is granted only while the counter of its branch
name is below the branch's limit, and it raises that counter; between two backward jumps the
index only grows. The room that the counters leave below their limits is a potential that every
backward jump lowers, whatever filters do and however often conditions change.
-/
import Praxis.Pipeline.Passes
import Praxis.Pipeline.Resolved
import Mathlib.Algebra.Order.BigOperators.Group.Finset
import Mathlib.Order.Lattice.Nat

namespace Praxis.Pipeline

open HttpFilterContext List Nat Praxis.Lib

variable {σ κ : Type}

/-! ## Budget and potential -/

def RejoinTarget.isReEnter : RejoinTarget → Bool
  | .reEnter _ => true
  | _ => false

variable (fs : List (PipelineFilter σ))

/-- The `ReEnter` branches of the top level. -/
def reEnterBranches : List BranchHead :=
  fs.flatMap fun pf => (pf.branches.map (·.head)).filter (·.rejoin.isReEnter)

/-- The distinct names of the top-level `ReEnter` branches. -/
def reEnterNames : Finset String := ((reEnterBranches fs).map (·.name)).toFinset

/-- The iteration limit behind a name: the limit of its branch, the largest one should several
branches share the name. -/
def iterationLimit (name : String) : Nat :=
  ((reEnterBranches fs).filter (·.name == name)).toFinset.sup fun b => b.maxIterations.getD 0

/-- The sum of the limits over the distinct names. -/
def reEnterBudget : Nat := ∑ name ∈ reEnterNames fs, iterationLimit fs name

/-- How many backward jumps the counters still allow at most. -/
def remainingJumps (ctx : HttpFilterContext σ) : Nat :=
  ∑ name ∈ reEnterNames fs, (iterationLimit fs name - ctx.iterations name)

variable {fs : List (PipelineFilter σ)} {ctx ctx' : HttpFilterContext σ} {s s' : RequestState σ}

theorem mem_reEnterBranches {pf : PipelineFilter σ} {b : ResolvedBranch σ} {t : Nat} (hpf : pf ∈ fs)
    (hb : b ∈ pf.branches) (ht : b.head.rejoin = .reEnter t) : b.head ∈ reEnterBranches fs := by
  refine mem_flatMap.2 ⟨pf, hpf, mem_filter.2 ⟨mem_map_of_mem hb, ?_⟩⟩
  rw [ht]
  rfl

variable {b : BranchHead} {limit i : Nat} {p : PipelineFilter σ}

theorem le_iterationLimit (hb : b ∈ reEnterBranches fs) (hl : b.maxIterations = some limit) :
    limit ≤ iterationLimit fs b.name := by
  have hmem : b ∈ ((reEnterBranches fs).filter (·.name == b.name)).toFinset :=
    mem_toFinset.2 (mem_filter.2 ⟨hb, beq_self_eq_true _⟩)
  have := Finset.le_sup (f := fun b : BranchHead => b.maxIterations.getD 0) hmem
  rwa [hl] at this

theorem remainingJumps_anti (h : ∀ name, ctx.iterations name ≤ ctx'.iterations name) :
    remainingJumps fs ctx' ≤ remainingJumps fs ctx :=
  Finset.sum_le_sum fun name _ => Nat.sub_le_sub_left (h name) _

/-- A counted iteration below the limit uses up one jump. -/
theorem remainingJumps_lt (hb : b ∈ reEnterBranches fs) (hl : b.maxIterations = some limit)
    (hle : ∀ name, ctx.iterations name ≤ ctx'.iterations name) (hlt : ctx.iterations b.name < ctx'.iterations b.name)
    (hlimit : ctx.iterations b.name < limit) : remainingJumps fs ctx' < remainingJumps fs ctx := by
  have hmax := le_iterationLimit hb hl
  refine Finset.sum_lt_sum (fun name _ => Nat.sub_le_sub_left (hle name) _) ⟨b.name, ?_, by omega⟩
  exact List.mem_toFinset.2 (List.mem_map_of_mem hb)

/-! ## Calls -/

/-- Whether the event is a call of the filter with this id. -/
def Event.isCallOf (id : Nat) : Event → Bool
  | .called i _ _ _ _ => i == id
  | _ => false

/-- How often `on_request` of the filter with this id was called. -/
def callsOf (id : Nat) (log : List Event) : Nat := log.countP (·.isCallOf id)

@[simp] theorem callsOf_append (id : Nat) (log log' : List Event) :
    callsOf id (log ++ log') = callsOf id log + callsOf id log' := countP_append

theorem callsOf_evaluated (id : Nat) (pf : FilterHead σ) :
    callsOf id (if pf.conditions.isEmpty then [] else [.evaluated pf.filterId pf.conditions]) = 0 := by
  split <;> rfl

theorem callsOf_callEvent (id : Nat) (pf : FilterHead σ) (f : HttpFilter σ) :
    callsOf id [callEvent pf f ctx] = if pf.filterId = id then 1 else 0 := by
  unfold callsOf callEvent
  simp [countP_cons, Event.isCallOf]

theorem BranchSteps.callsOf_eq {E : Nat → ResolvedBranch σ → Prop} {id : Nat}
    (hE : ∀ h b, E h b → ∀ pf ∈ b.filters, pf.head.filterId ≠ id) (h : BranchSteps E ctx ctx') : callsOf id ctx'.log = callsOf id ctx.log := by
  refine BranchSteps.invariant (I := fun c => callsOf id c.log = callsOf id ctx.log) ?_ h rfl
  intro c c' hs hc
  cases hs with
  | called hEb hpf hf hr =>
    rw [calledInBranch_log, callsOf_append, callsOf_callEvent, if_neg (hE _ _ hEb _ hpf)]
    exact hc
  | clear | trace => exact hc
  | evaluated | decided => rw [record_log, callsOf_append]; exact hc
  | @checked host b _ =>
    have hrecord : ∀ count, callsOf id (c.record (.counted host b.head count)).log = callsOf id ctx.log := fun count => by
      rw [record_log, callsOf_append]
      exact hc
    exact checkReentranceLimit_rule (P := fun c => callsOf id c.log = callsOf id ctx.log) hc (hrecord _) (hrecord _)

/-! ## One pass -/

/-- A pass calls a top-level filter at most once, and only the one at the loop's index. -/
theorem TopPass.callsOf_le (hres : Resolved fs) {r : Pass (RequestState σ) (RequestEnd σ)} (h : TopPass fs s r)
    (hp : fs[i]? = some p) :
    callsOf p.head.filterId (passCtx r).log ≤ callsOf p.head.filterId s.ctx.log + if s.idx = i then 1 else 0 := by
  have hcall : ∀ {pf : PipelineFilter σ} {f : HttpFilter σ}, fs[s.idx]? = some pf →
      callsOf p.head.filterId (calledAtTop pf.head f s).log ≤
        callsOf p.head.filterId s.ctx.log + if s.idx = i then 1 else 0 := by
    intro pf f hpf
    rw [calledAtTop_log, callsOf_append, callsOf_append, callsOf_evaluated, callsOf_callEvent]
    by_cases hid : pf.head.filterId = p.head.filterId
    · rw [if_pos hid, if_pos (hres.top_inj hpf hp hid)]
    · rw [if_neg hid]
      omega
  cases h with
  | finished _ | tcp _ _ => exact le_add_right _ _
  | skipped hpf hf hc =>
    show callsOf _ (s.ctx.log ++ _) ≤ _
    rw [callsOf_append]
    exact le_add_right _ _
  | failed hpf | answered hpf => exact hcall hpf
  | branched hpf hf hfail hrun =>
    rename_i pf f ctx' o
    rw [passCtx_afterBranches]
    have hsteps := branched_steps hfail (covers_branchSubfilters _ _) hrun
    rw [hsteps.callsOf_eq fun _ b hb c hc =>
      hres.top_not_nested (mem_of_getElem? hp) (mem_subfilters (mem_of_getElem? hpf)) (hb c hc)]
    exact hcall hpf

/-- A pass that asks for another either moves the index forward without lowering a counter, or
uses up a backward jump. -/
theorem TopPass.moves (hres : Resolved fs) (h : TopPass fs s (.again s')) :
    s.idx < fs.length ∧ ((s.idx < s'.idx ∧ remainingJumps fs s'.ctx ≤ remainingJumps fs s.ctx) ∨
      remainingJumps fs s'.ctx < remainingJumps fs s.ctx) := by
  generalize hr : Pass.again s' = r at h
  cases h with
  | finished _ => cases hr
  | tcp hpf hf =>
    cases hr
    obtain ⟨hlt, -⟩ := List.getElem?_eq_some_iff.1 hpf
    exact ⟨hlt, .inl ⟨Nat.lt_succ_self _, le_rfl⟩⟩
  | skipped hpf hf hc =>
    cases hr
    obtain ⟨hlt, -⟩ := List.getElem?_eq_some_iff.1 hpf
    exact ⟨hlt, .inl ⟨Nat.lt_succ_self _, le_rfl⟩⟩
  | failed | answered => cases hr
  | branched hpf hf hfail hrun =>
    rename_i pf f ctx' o
    obtain ⟨hlt, -⟩ := List.getElem?_eq_some_iff.1 hpf
    obtain ⟨hctx, -, hmove⟩ := afterBranches_again hr.symm
    have hret : Returned pf.head.filterId (markTopLevel (calledAtTop pf.head f s) s.idx).log :=
      returned_calledAtTop hfail
    have hsteps := branched_steps hfail (covers_true _) hrun
    -- The call itself leaves the counters alone.
    have hstart : ∀ name, (markTopLevel (calledAtTop pf.head f s) s.idx).iterations name = s.ctx.iterations name :=
      calledAtTop_iterations pf.head f s
    have hle : ∀ name, s.ctx.iterations name ≤ s'.ctx.iterations name := fun name => by
      rw [hctx, ← hstart name]
      exact hsteps.iterations_le name
    refine ⟨hlt, ?_⟩
    rw [enterFilter_idx] at hmove
    rcases hmove with ⟨-, hidx⟩ | ⟨t, ho, hidx⟩ | ⟨t, ho, hidx⟩
    · exact .inl ⟨by omega, remainingJumps_anti hle⟩
    · rw [ho] at hrun
      obtain ⟨pre, b, post, hbs, ⟨mid, -, hend⟩, -⟩ := hrun.ended hret nofun
      have hb : b ∈ pf.branches := by rw [hbs]; simp
      have := hres.forward s.idx pf hpf b hb t hend
      exact .inl ⟨by omega, remainingJumps_anti hle⟩
    · rw [ho] at hrun
      obtain ⟨pre, b, post, hbs, ⟨mid, hmid, hend⟩, -⟩ := hrun.ended hret nofun
      have hb : b ∈ pf.branches := by rw [hbs]; simp
      obtain ⟨hrejoin, hcounted, hlimit⟩ := hend
      obtain ⟨-, limit, hmax⟩ := hres.backward s.idx pf hpf b hb t hrejoin
      have hbefore : s.ctx.iterations b.head.name ≤ mid.iterations b.head.name := by
        rw [← hstart]
        exact hmid _
      have hbelow := hlimit limit hmax
      refine .inr (remainingJumps_lt (mem_reEnterBranches (List.mem_of_getElem? hpf) hb hrejoin) hmax hle ?_ ?_)
      · rw [hctx]
        omega
      · omega

/-! ## Whole runs -/

/-- The passes a loop state still allows at most. -/
def passesLeft (fs : List (PipelineFilter σ)) (s : RequestState σ) : Nat :=
  remainingJumps fs s.ctx * (fs.length + 1) + (fs.length - s.idx)

theorem passesLeft_lt (hres : Resolved fs) (h : requestPass fs s = .again s') : passesLeft fs s' < passesLeft fs s := by
  have hpass := requestPass_cases fs s
  rw [h] at hpass
  obtain ⟨hlt, ⟨hidx, hle⟩ | hjump⟩ := hpass.moves hres
  · have hmul := mul_le_mul_right (fs.length + 1) hle
    unfold passesLeft
    omega
  · have hmul := mul_le_mul_right (fs.length + 1) (succ_le_of_lt hjump)
    rw [succ_mul] at hmul
    unfold passesLeft
    omega

/-- Calls of the filter at position `i`, counted with the calls the state still allows. -/
theorem calls_with_credit (hres : Resolved fs) (hp : fs[i]? = some p) (h : requestPass fs s = .again s') :
    callsOf p.head.filterId s'.ctx.log + (if s'.idx ≤ i then 1 else 0) + remainingJumps fs s'.ctx ≤
      callsOf p.head.filterId s.ctx.log + (if s.idx ≤ i then 1 else 0) + remainingJumps fs s.ctx := by
  have hpass := requestPass_cases fs s
  rw [h] at hpass
  have hcalls : callsOf p.head.filterId s'.ctx.log ≤ callsOf p.head.filterId s.ctx.log + if s.idx = i then 1 else 0 :=
    hpass.callsOf_le hres hp
  obtain ⟨-, ⟨hidx, hle⟩ | hjump⟩ := hpass.moves hres
  · split_ifs at hcalls ⊢ <;> omega
  · split_ifs at hcalls ⊢ <;> omega

theorem requestStart_callsOf (id : Nat) : callsOf id (requestStart fs ctx).ctx.log = callsOf id ctx.log := by
  obtain ⟨added, hstart, hquiet⟩ := (quiet_requestStart fs ctx).log
  have hnone : callsOf id added = 0 := by
    refine countP_eq_zero.2 fun e he hcall => ?_
    have hquiet := hquiet e he
    cases e <;> first | cases hcall | cases hquiet
  rw [hstart, callsOf_append, hnone, add_zero]

/-- The request phase returns within a bounded number of passes, and calls each top-level filter
at most once more than the iteration limits allow backward jumps. -/
theorem executeHttpRequest_terminates {reg : FilterRegistry σ κ} {chains : String → Option (List (FilterEntry κ))}
    {entries : List (FilterEntry κ)} {fs : List (PipelineFilter σ)}
    (h : buildWithChains reg chains entries = .ok fs) (ctx : HttpFilterContext σ) :
    ∃ r : RequestEnd σ,
      (∀ fuel, (reEnterBudget fs + 1) * (fs.length + 1) ≤ fuel →
        executeHttpRequest fs fuel ctx = some r) ∧
      ∀ pf ∈ fs, callsOf pf.head.filterId r.1.log ≤
        callsOf pf.head.filterId ctx.log + (1 + reEnterBudget fs) := by
  have hres := buildWithChains_resolved h
  have hbudget : remainingJumps fs (requestStart fs ctx).ctx ≤ reEnterBudget fs :=
    Finset.sum_le_sum fun _ _ => sub_le _ _
  have hstart : passesLeft fs (requestStart fs ctx) < (reEnterBudget fs + 1) * (fs.length + 1) := by
    have := mul_le_mul_right (fs.length + 1) hbudget
    unfold passesLeft
    rw [succ_mul]
    omega
  obtain ⟨r, hr⟩ := loop_returns (I := fun _ => True) (passesLeft fs)
    (fun s s' _ hpass => ⟨trivial, passesLeft_lt hres hpass⟩) trivial hstart
  refine ⟨r, fun fuel hfuel => loop_mono hr hfuel, fun p hmem => ?_⟩
  obtain ⟨i, hi⟩ := mem_iff_getElem?.1 hmem
  -- Calls made and calls still allowed never exceed what the start allows.
  refine loop_inv (I := fun s : RequestState σ =>
      callsOf p.head.filterId s.ctx.log + (if s.idx ≤ i then 1 else 0) + remainingJumps fs s.ctx ≤
        callsOf p.head.filterId ctx.log + (1 + reEnterBudget fs))
    (Q := fun r : RequestEnd σ => callsOf p.head.filterId r.1.log ≤ callsOf p.head.filterId ctx.log + (1 + reEnterBudget fs))
    (fun s s' hI hpass => le_trans (calls_with_credit hres hi hpass) hI) ?_ ?_ hr
  · intro s r hI hpass
    have hcases := requestPass_cases fs s
    rw [hpass] at hcases
    have hcalls := hcases.callsOf_le hres hi
    change callsOf p.head.filterId r.1.log ≤ _ at hcalls
    split_ifs at hcalls hI <;> omega
  · rw [requestStart_callsOf]
    have : (if (requestStart fs ctx).idx ≤ i then 1 else 0) ≤ 1 := by split_ifs <;> omega
    omega

/-- A two-filter pipeline whose second filter re-enters the first at most twice. -/
def reEnteringEntries : List (FilterEntry Unit) :=
  [.mk (.plain "headers" (some "start")) none,
   .mk (.plain "guardrails" none) (some [.mk
     { name := "again", maxIterations := some 2, onResult := none, rejoin := "start" }
     [.inline "again_chain" [.mk (.plain "access_log" none) none]]])]

/-- What the build makes of `reEnteringEntries`. -/
def reEnteringFilters : List (PipelineFilter Unit) :=
  [.mk (.plain 0 (some "start") (.http (.noop "headers"))) [],
   .mk (.plain 1 none (.http (.noop "guardrails")))
     [.mk { name := "again", condition := none, maxIterations := some 2, rejoin := .reEnter 0 }
       [.mk (.plain 2 none (.http (.noop "access_log"))) []]]]

theorem reEnteringFilters_terminate :
    buildWithChains noopRegistry (fun _ => none) reEnteringEntries = .ok reEnteringFilters ∧
    reEnterBudget reEnteringFilters = 2 ∧
    ∃ r : RequestEnd Unit,
      (∀ fuel, (2 + 1) * (2 + 1) ≤ fuel →
        executeHttpRequest reEnteringFilters fuel (.fresh ⟨"GET", "/", []⟩ ()) = some r) ∧
      ∀ pf ∈ reEnteringFilters, callsOf pf.head.filterId r.1.log ≤ callsOf pf.head.filterId [] + (1 + 2) :=
  ⟨rfl, by decide, executeHttpRequest_terminates
    (show buildWithChains noopRegistry (fun _ => none) reEnteringEntries = .ok reEnteringFilters from rfl) _⟩

end Praxis.Pipeline
