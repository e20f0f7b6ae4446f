/-
Request and response hooks are paired. The request phase leaves two kinds of marks, one per
top-level index and one per filter inside a branch; along every run the marks say exactly which
`on_request` calls returned. The response phase reads the marks back in one reverse walk of the
tree, and so considers exactly those filters.
-/
import Praxis.Pipeline.Passes
import Praxis.Pipeline.Resolved

namespace Praxis.Pipeline

open PipelineFilter HttpFilterContext List Bool Praxis.Lib Relation

variable {σ κ : Type}

/-! ## Calls that returned -/

/-- Whether the event is a call of `id` that returned. -/
def Event.isReturnOf (id : Nat) : Event → Bool
  | .called filter _ _ _ returned => filter == id && returned
  | _ => false

/-- `Returned` as a test. -/
def hasReturned (id : Nat) (log : List Event) : Bool := log.any (·.isReturnOf id)

theorem hasReturned_iff {id : Nat} {log : List Event} : hasReturned id log = true ↔ Returned id log := by
  rw [hasReturned, any_eq_true]
  constructor
  · rintro ⟨e, he, hret⟩
    cases e with
    | called filter name before after returned =>
      obtain ⟨rfl, rfl⟩ : filter = id ∧ returned = true := by simpa [Event.isReturnOf] using hret
      exact ⟨name, before, after, he⟩
    | evaluated | decided | counted | considered => cases hret
  · rintro ⟨name, before, after, hm⟩
    exact ⟨_, hm, by simp [Event.isReturnOf]⟩

variable (id : Nat) (pf : FilterHead σ) (f : HttpFilter σ)

@[simp] theorem hasReturned_append (log log' : List Event) :
    hasReturned id (log ++ log') = (hasReturned id log || hasReturned id log') := any_append

/-- What a call adds: its own filter, unless an error propagates. -/
theorem hasReturned_callEvent {ctx : HttpFilterContext σ} :
    hasReturned id [callEvent pf f ctx] =
      (pf.filterId == id && !propagates (callOnRequest pf f ctx).2 pf.failureMode) := by
  rw [hasReturned, List.any_cons, List.any_nil, Bool.or_false]
  rfl

theorem hasReturned_conditions :
    hasReturned id (if pf.conditions.isEmpty then [] else [.evaluated pf.filterId pf.conditions]) = false := by
  split <;> rfl

/-! ## Marks -/

theorem branchFilterExecuted_record (executed : List Bool) (id id' : Nat) :
    branchFilterExecuted (recordExecutedBranchFilter executed id) id' =
      (id == id' || branchFilterExecuted executed id') := by
  unfold branchFilterExecuted recordExecutedBranchFilter
  rw [List.getElem?_set]
  by_cases hid : id = id'
  · subst hid
    have hlen : id < (executed ++ List.replicate (id + 1 - executed.length) false).length := by
      rw [List.length_append, List.length_replicate]
      omega
    simp only [if_pos, hlen, beq_self_eq_true, Bool.true_or]
  · rw [if_neg hid, beq_eq_false_iff_ne.2 hid, Bool.false_or, List.getElem?_append]
    split
    · rfl
    · rename_i hge
      -- past the old marks both sides read "not executed"
      have hnone : executed[id']? = none := List.getElem?_eq_none (by omega)
      rw [List.getElem?_replicate, hnone]
      split <;> rfl

theorem branchFilterExecuted_calledInBranch {ctx : HttpFilterContext σ} (id : Nat) :
    branchFilterExecuted (calledInBranch pf f ctx).books.executedBranchFilters id =
      (branchFilterExecuted ctx.books.executedBranchFilters id ||
        (pf.filterId == id && !propagates (callOnRequest pf f ctx).2 pf.failureMode)) := by
  unfold calledInBranch
  split
  · rename_i hp
    rw [hp, Bool.not_true, Bool.and_false, Bool.or_false]
    rfl
  · rename_i hp
    rw [Bool.eq_false_iff.2 hp, Bool.not_false, Bool.and_true, Bool.or_comm]
    exact branchFilterExecuted_record ctx.books.executedBranchFilters pf.filterId id

@[simp] theorem calledInBranch_indices {ctx : HttpFilterContext σ} :
    (calledInBranch pf f ctx).books.executedFilterIndices = ctx.books.executedFilterIndices := by
  unfold calledInBranch
  split <;> rfl

/-- The marks say which calls returned; a filter inside a branch is called only below hosts that
returned, and only HTTP filters are called. -/
structure Paired (flt : List (PipelineFilter σ)) (ctx : HttpFilterContext σ) : Prop where
  top : ∀ (i : Nat) (pf : PipelineFilter σ), flt[i]? = some pf →
    ctx.books.executedFilterIndices[i]? = some (hasReturned pf.head.filterId ctx.log)
  nested : ∀ pf ∈ flt, ∀ c ∈ branchSubfilters pf.branches,
    branchFilterExecuted ctx.books.executedBranchFilters c.head.filterId = hasReturned c.head.filterId ctx.log
  closed : ∀ pf ∈ subfilters flt, ∀ c ∈ branchSubfilters pf.branches,
    hasReturned c.head.filterId ctx.log = true → hasReturned pf.head.filterId ctx.log = true
  http : ∀ pf ∈ subfilters flt, hasReturned pf.head.filterId ctx.log = true → pf.head.filter.isHttp = true

variable {flt : List (PipelineFilter σ)} {ctx : HttpFilterContext σ} {ctx' : HttpFilterContext σ}

theorem Paired.congr (h : Paired flt ctx) (hlog : ∀ id, hasReturned id ctx'.log = hasReturned id ctx.log)
    (htop : ctx'.books.executedFilterIndices = ctx.books.executedFilterIndices)
    (hnested : ctx'.books.executedBranchFilters = ctx.books.executedBranchFilters) : Paired flt ctx' := by
  constructor
  · intro i pf hpf
    rw [htop, hlog]
    exact h.top i pf hpf
  · intro pf hpf c hc
    rw [hnested, hlog]
    exact h.nested pf hpf c hc
  · intro pf hpf c hc
    rw [hlog, hlog]
    exact h.closed pf hpf c hc
  · intro pf hpf
    rw [hlog]
    exact h.http pf hpf

/-! ## The request phase keeps the marks paired -/

section

variable {flt : List (PipelineFilter σ)} {pf : PipelineFilter σ} {ctx : HttpFilterContext σ} {s : RequestState σ}

theorem Paired.calledInBranch (hres : Resolved flt) {ctx : HttpFilterContext σ} {host : Nat}
    {b : ResolvedBranch σ} {pf : PipelineFilter σ} {f : HttpFilter σ} (hE : BranchOf flt host b) (hpb : pf ∈ b.filters)
    (hf : pf.head.filter = .http f) (hr : Returned host ctx.log) (h : Paired flt ctx) :
    Paired flt (Praxis.Pipeline.calledInBranch pf.head f ctx) := by
  obtain ⟨q, hq, hqid, hb⟩ := hE
  have hchild : pf ∈ q.children := mem_children.2 ⟨b, hb, hpb⟩
  have hbelow : pf ∈ branchSubfilters q.branches := subfilters_filters_subset hb (mem_subfilters hpb)
  have hmem : pf ∈ subfilters flt := subfilters_trans hq hbelow
  have hlog : ∀ id, hasReturned id (Praxis.Pipeline.calledInBranch pf.head f ctx).log =
      (hasReturned id ctx.log ||
        (pf.head.filterId == id && !propagates (callOnRequest pf.head f ctx).2 pf.head.failureMode)) := by
    intro id
    rw [calledInBranch_log, hasReturned_append, hasReturned_callEvent]
  constructor
  · intro i p hp
    have hne := hres.top_not_nested (List.mem_of_getElem? hp) hq hbelow
    rw [calledInBranch_indices, hlog, beq_eq_false_iff_ne.2 hne, Bool.false_and, Bool.or_false]
    exact h.top i p hp
  · intro p hp c hc
    rw [branchFilterExecuted_calledInBranch, hlog, h.nested p hp c hc]
  · intro p hp c hc hret
    rw [hlog, Bool.or_eq_true] at hret ⊢
    refine .inl ?_
    rcases hret with hret | hnew
    · exact h.closed p hp c hc hret
    · -- the new call is the call of `c`; its host returned, and the host is `p` or below `p`
      have hid : pf.head.filterId = c.head.filterId := eq_of_beq (Bool.and_eq_true_iff.1 hnew).1
      have hcq : c.head.filterId ∈ childIds q := hid ▸ List.mem_map_of_mem hchild
      have hqret : hasReturned q.head.filterId ctx.log = true := hasReturned_iff.2 (hqid ▸ hr)
      rcases parent_below hres.ids hp hq hc hcq with rfl | hqp
      · exact hqret
      · exact h.closed p hp q hqp hqret
  · intro p hp hret
    rw [hlog, Bool.or_eq_true] at hret
    rcases hret with hret | hnew
    · exact h.http p hp hret
    · obtain rfl := hres.id_inj hmem hp (eq_of_beq (Bool.and_eq_true_iff.1 hnew).1)
      rw [hf]
      rfl

theorem Paired.branchStep (hres : Resolved flt) (hs : BranchStep (BranchOf flt) ctx ctx') (h : Paired flt ctx) :
    Paired flt ctx' := by
  have hrecord : ∀ e : Event, (∀ id, e.isReturnOf id = false) → Paired flt (ctx.record e) := by
    intro e he
    refine h.congr (fun id => ?_) rfl rfl
    rw [record_log, hasReturned_append, hasReturned, hasReturned, any_cons, he]
    exact or_false _
  cases hs with
  | clear | trace => exact h.congr (fun _ => rfl) rfl rfl
  | evaluated | decided => exact hrecord _ fun _ => rfl
  | @checked host b _ =>
    have hcounted := hrecord (.counted host b.head (ctx.books.branchIterations b.head.name)) fun _ => rfl
    exact checkReentranceLimit_rule (P := Paired flt) h hcounted (hcounted.congr (fun _ => rfl) rfl rfl)
  | called hE hpf hf hr => exact h.calledInBranch hres hE hpf hf hr

variable {f : HttpFilter σ}

theorem Paired.failedAtTop (hp : failsAtTop pf.head f s = true) (h : Paired flt s.ctx) :
    Paired flt (calledAtTop pf.head f s) := by
  refine h.congr (fun id => ?_) ?_ ?_
  · have hfail : propagates (callOnRequest pf.head f (enterFilter pf.head f s).ctx).2 pf.head.failureMode = true := hp
    rw [calledAtTop_log, hasReturned_append, hasReturned_append, hasReturned_conditions, hasReturned_callEvent,
      hfail, Bool.not_true, Bool.and_false, Bool.or_false, Bool.or_false]
  · rw [calledAtTop, callOnRequest_books, enterFilter_books]
  · rw [calledAtTop, callOnRequest_books, enterFilter_books]

theorem Paired.markedAtTop (hres : Resolved flt) (hpf : flt[s.idx]? = some pf) (hf : pf.head.filter = .http f)
    (hp : failsAtTop pf.head f s = false) (h : Paired flt s.ctx) :
    Paired flt (markTopLevel (calledAtTop pf.head f s) s.idx) := by
  have hmem : pf ∈ flt := List.mem_of_getElem? hpf
  have hbooks : (calledAtTop pf.head f s).books = s.ctx.books := by
    rw [calledAtTop, callOnRequest_books, enterFilter_books]
  have hlog : ∀ id, hasReturned id (markTopLevel (calledAtTop pf.head f s) s.idx).log =
      (hasReturned id s.ctx.log || pf.head.filterId == id) := by
    intro id
    have hfail : propagates (callOnRequest pf.head f (enterFilter pf.head f s).ctx).2 pf.head.failureMode = false := hp
    rw [markTopLevel_log, calledAtTop_log, hasReturned_append, hasReturned_append, hasReturned_conditions,
      hasReturned_callEvent, hfail, Bool.not_false, Bool.and_true, Bool.or_false]
  have hindices : (markTopLevel (calledAtTop pf.head f s) s.idx).books.executedFilterIndices =
      s.ctx.books.executedFilterIndices.set s.idx true := by
    rw [← hbooks]
    rfl
  have hnested : (markTopLevel (calledAtTop pf.head f s) s.idx).books.executedBranchFilters =
      s.ctx.books.executedBranchFilters := by
    rw [← hbooks]
    rfl
  have hbelow : ∀ p ∈ subfilters flt, ∀ c ∈ branchSubfilters p.branches,
      (pf.head.filterId == c.head.filterId) = false := by
    intro p hp c hc
    exact beq_eq_false_iff_ne.2 (hres.top_not_nested hmem hp hc).symm
  constructor
  · intro i p hpi
    have hold := h.top i p hpi
    rw [hindices, hlog, List.getElem?_set]
    by_cases hi : s.idx = i
    · subst hi
      obtain ⟨hlt, -⟩ := List.getElem?_eq_some_iff.1 hold
      cases hpf.symm.trans hpi
      rw [if_pos rfl, if_pos hlt, beq_self_eq_true, Bool.or_true]
    · have hne : pf.head.filterId ≠ p.head.filterId := fun heq => hi (hres.top_inj hpf hpi heq)
      rw [if_neg hi, beq_eq_false_iff_ne.2 hne, Bool.or_false]
      exact hold
  · intro p hp c hc
    rw [hnested, hlog, hbelow p (mem_subfilters hp) c hc, Bool.or_false]
    exact h.nested p hp c hc
  · intro p hp c hc hret
    rw [hlog, hbelow p hp c hc, Bool.or_false] at hret
    rw [hlog, h.closed p hp c hc hret, Bool.true_or]
  · intro p hp hret
    rw [hlog, Bool.or_eq_true] at hret
    rcases hret with hret | hnew
    · exact h.http p hp hret
    · obtain rfl := hres.id_inj (mem_subfilters hmem) hp (eq_of_beq hnew)
      rw [hf]
      rfl

theorem Paired.topPass (hres : Resolved flt) {p : Pass (RequestState σ) (RequestEnd σ)} (hp : TopPass flt s p)
    (h : Paired flt s.ctx) : Paired flt (passCtx p) := by
  cases hp with
  | finished | tcp => exact h
  | skipped hpf hf hc =>
    refine h.congr (fun id => ?_) rfl rfl
    exact (hasReturned_append id _ _).trans (or_false _)
  | failed hpf hf hfail e => exact h.failedAtTop hfail
  | answered hpf hf hfail ha => exact h.markedAtTop hres hpf hf hfail
  | branched hpf hf hfail hrun =>
    rename_i pf f ctx' o
    have hmem : pf ∈ flt := mem_of_getElem? hpf
    have hsteps := branched_steps hfail (covers_branchOf (mem_subfilters hmem)) hrun
    rw [passCtx_afterBranches]
    exact hsteps.invariant (fun _ _ hs => Paired.branchStep hres hs) (h.markedAtTop hres hpf hf hfail)

theorem Paired.start (flt : List (PipelineFilter σ)) (hlog : ctx.log = []) :
    Paired flt (requestStart flt ctx).ctx := by
  have hnone : ∀ id, hasReturned id (requestStart flt ctx).ctx.log = false := by
    intro id
    obtain ⟨added, hstart, hquiet⟩ := (quiet_requestStart flt ctx).log
    rw [hstart, hlog]
    refine List.any_eq_false.2 fun e he hreturn => ?_
    have hquiet := hquiet e he
    cases e <;> first | cases hreturn | cases hquiet
  constructor
  · intro i pf hpf
    obtain ⟨hlt, -⟩ := List.getElem?_eq_some_iff.1 hpf
    rw [hnone]
    show (List.replicate flt.length false)[i]? = some false
    rw [List.getElem?_replicate, if_pos hlt]
  · intro pf hpf c hc
    rw [hnone]
    rfl
  · intro pf hpf c hc hret
    rw [hnone] at hret
    cases hret
  · intro pf hpf hret
    rw [hnone] at hret
    cases hret

theorem Paired.executeHttpRequest (hres : Resolved flt) {fuel : Nat} {r : RequestEnd σ} (hlog : ctx.log = [])
    (hrun : Praxis.Pipeline.executeHttpRequest flt fuel ctx = some r) : Paired flt r.1 := by
  have hstep : ∀ s p, Paired flt s.ctx → requestPass flt s = p → Paired flt (passCtx p) := by
    intro s p h hpass
    have hcases := requestPass_cases flt s
    rw [hpass] at hcases
    exact h.topPass hres hcases
  exact loop_inv (I := fun s : RequestState σ => Paired flt s.ctx) (Q := fun r : RequestEnd σ => Paired flt r.1)
    (fun s s' h hpass => hstep s _ h hpass) (fun s r h hpass => hstep s _ h hpass) (Paired.start flt hlog) hrun

end

/-! ## The response phase reads them back -/

section

/-- The response hooks of some filters, one after the other until one stops the phase. -/
def runHooks : List (PipelineFilter σ) → HttpFilterContext σ → HttpFilterContext σ × Except FilterError (Option Rejection)
  | [], ctx => (ctx, .ok none)
  | pf :: rest, ctx =>
    match runResponseHook pf.head ctx with
    | (ctx, .ok none) => runHooks rest ctx
    | stopped => stopped

theorem runHooks_append (ys : List (PipelineFilter σ)) : ∀ (xs : List (PipelineFilter σ)) (ctx : HttpFilterContext σ),
    runHooks (xs ++ ys) ctx =
      match runHooks xs ctx with
      | (ctx, .ok none) => runHooks ys ctx
      | stopped => stopped
  | [], ctx => rfl
  | pf :: xs, ctx => by
    rw [cons_append, runHooks, runHooks]
    split
    · exact runHooks_append ys xs _
    · rename_i hstop
      split
      · rename_i ctx' heq
        exact absurd heq (hstop ctx')
      · rfl

theorem runHooks_singleton (pf : PipelineFilter σ) (ctx : HttpFilterContext σ) :
    runHooks [pf] ctx = runResponseHook pf.head ctx := by
  rw [runHooks]
  split
  · rename_i ctx' heq
    rw [runHooks, heq]
  · rfl

theorem runResponseHook_books (pf : FilterHead σ) (ctx : HttpFilterContext σ) : (runResponseHook pf ctx).1.books = ctx.books := by
  unfold runResponseHook
  split
  · rfl
  · dsimp only
    split <;> rfl

theorem runHooks_invariant {I : HttpFilterContext σ → Prop} : ∀ {pfs : List (PipelineFilter σ)} {ctx : HttpFilterContext σ},
    (∀ pf ∈ pfs, ∀ ctx, I ctx → I (runResponseHook pf.head ctx).1) → I ctx → I (runHooks pfs ctx).1
  | [], _, _, hI => hI
  | pf :: rest, ctx, hhook, hI => by
    have hfirst := hhook pf (.head _) ctx hI
    rw [runHooks]
    split
    · rename_i ctx' heq
      rw [heq] at hfirst
      exact runHooks_invariant (fun p hp => hhook p (.tail _ hp)) hfirst
    · exact hfirst

theorem runHooks_books (pfs : List (PipelineFilter σ)) (ctx : HttpFilterContext σ) : (runHooks pfs ctx).1.books = ctx.books :=
  runHooks_invariant (I := fun ctx' : HttpFilterContext σ => ctx'.books = ctx.books)
    (fun pf _ ctx' h => (runResponseHook_books pf.head ctx').trans h) rfl

theorem runResponseHook_passed {pf : FilterHead σ} (hhttp : pf.filter.isHttp = true)
    (h : runResponseHook pf ctx = (ctx', .ok none)) : ctx'.log = ctx.log ++ [.considered pf.filterId] := by
  unfold runResponseHook at h
  split at h
  · rename_i name hf
    rw [hf] at hhttp
    cases hhttp
  · dsimp only at h
    split at h
    · cases h
      rfl
    · obtain ⟨rfl, -⟩ := Prod.mk.inj h
      rfl

theorem runHooks_passed : ∀ {pfs : List (PipelineFilter σ)} {ctx ctx' : HttpFilterContext σ},
    (∀ pf ∈ pfs, pf.head.filter.isHttp = true) → runHooks pfs ctx = (ctx', .ok none) →
      ctx'.log = ctx.log ++ pfs.map fun pf => .considered pf.head.filterId
  | [], ctx, ctx', _, h => by
    cases h
    exact (append_nil _).symm
  | pf :: rest, ctx, ctx', hhttp, h => by
    rw [runHooks] at h
    split at h
    · rename_i ctx₁ heq
      have hfirst := runResponseHook_passed (hhttp pf (.head _)) heq
      rw [runHooks_passed (fun p hp => hhttp p (.tail _ hp)) h, hfirst, append_assoc]
      rfl
    · rename_i hstop
      exact absurd h (hstop ctx')

/-- The filters that pass the test, in the order in which the response phase meets them. -/
def unwound (returned : Nat → Bool) (fs : List (PipelineFilter σ)) : List (PipelineFilter σ) :=
  (fs.filter fun pf => returned pf.head.filterId).reverse

variable {ys : List (PipelineFilter σ)}

@[simp] theorem unwound_append {returned : Nat → Bool} (xs : List (PipelineFilter σ)) :
    unwound returned (xs ++ ys) = unwound returned ys ++ unwound returned xs := by
  rw [unwound, filter_append, reverse_append]
  rfl

theorem unwound_cons {returned : Nat → Bool} {pf : PipelineFilter σ} (fs : List (PipelineFilter σ)) :
    unwound returned (pf :: fs) = unwound returned fs ++ (if returned pf.head.filterId then [pf] else []) := by
  unfold unwound
  rw [filter_cons]
  split
  · rw [reverse_cons]
  · rw [append_nil]

/-- What the reverse walk needs to know of the filters it meets. -/
structure Walkable (returned : Nat → Bool) (marks : List Bool) (fs : List (PipelineFilter σ)) : Prop where
  marked : ∀ pf ∈ fs, branchFilterExecuted marks pf.head.filterId = returned pf.head.filterId
  closed : ∀ pf ∈ fs, ∀ c ∈ branchSubfilters pf.branches,
    returned c.head.filterId = true → returned pf.head.filterId = true

theorem Walkable.mono {returned : Nat → Bool} {marks : List Bool} {fs fs' : List (PipelineFilter σ)}
    (h : Walkable returned marks fs) (hsub : fs' ⊆ fs) : Walkable returned marks fs' :=
  ⟨fun pf hpf => h.marked pf (hsub hpf), fun pf hpf => h.closed pf (hsub hpf)⟩

theorem unwound_below {returned : Nat → Bool} {pf : PipelineFilter σ}
    (hclosed : ∀ c ∈ branchSubfilters pf.branches, returned c.head.filterId = true → returned pf.head.filterId = true)
    (h : returned pf.head.filterId = false) : unwound returned (branchSubfilters pf.branches) = [] := by
  have hfilter : (branchSubfilters pf.branches).filter (fun c => returned c.head.filterId) = [] := by
    refine filter_eq_nil_iff.2 fun c hc hret => ?_
    rw [hclosed c hc hret] at h
    cases h
  rw [unwound, hfilter]
  rfl

variable {returned : Nat → Bool}

theorem runHooks_then {xs : List (PipelineFilter σ)}
    {next : HttpFilterContext σ → HttpFilterContext σ × Except FilterError (Option Rejection)}
    (hnext : ∀ ctx', ctx'.books = ctx.books → next ctx' = runHooks ys ctx') :
    (match runHooks xs ctx with
      | (ctx, .ok none) => next ctx
      | stopped => stopped) = runHooks (xs ++ ys) ctx := by
  have hbooks := runHooks_books xs ctx
  rw [runHooks_append]
  split
  · rename_i ctx' heq
    rw [heq] at hbooks
    exact hnext ctx' hbooks
  · rfl

mutual

theorem unwindBranches_eq : ∀ (bs : List (ResolvedBranch σ)) (ctx : HttpFilterContext σ),
    Walkable returned ctx.books.executedBranchFilters (branchSubfilters bs) →
      unwindBranches bs ctx = runHooks (unwound returned (branchSubfilters bs)) ctx
  | [], ctx, _ => rfl
  | b :: bs, ctx, hw => by
    rw [branchSubfilters_cons] at hw ⊢
    rw [unwindBranches, unwound_append, unwindBranches_eq bs ctx (hw.mono (subset_append_right _ _))]
    exact runHooks_then fun ctx' hbooks => unwindBranch_eq b ctx' (hbooks ▸ hw.mono (subset_append_left _ _))

theorem unwindBranch_eq : ∀ (b : ResolvedBranch σ) (ctx : HttpFilterContext σ),
    Walkable returned ctx.books.executedBranchFilters (subfilters b.filters) →
      unwindBranch b ctx = runHooks (unwound returned (subfilters b.filters)) ctx
  | .mk _ fs, ctx, hw => by
    rw [unwindBranch]
    exact unwindChain_eq fs ctx hw

theorem unwindChain_eq : ∀ (fs : List (PipelineFilter σ)) (ctx : HttpFilterContext σ),
    Walkable returned ctx.books.executedBranchFilters (subfilters fs) →
      unwindChain fs ctx = runHooks (unwound returned (subfilters fs)) ctx
  | [], ctx, _ => rfl
  | pf :: fs, ctx, hw => by
    rw [subfilters] at hw ⊢
    rw [unwindChain, unwound_append, unwindChain_eq fs ctx (hw.mono (subset_append_right _ _))]
    exact runHooks_then fun ctx' hbooks => unwindFilter_eq pf ctx' (hbooks ▸ hw.mono (subset_append_left _ _))

theorem unwindFilter_eq : ∀ (pf : PipelineFilter σ) (ctx : HttpFilterContext σ),
    Walkable returned ctx.books.executedBranchFilters pf.subfilters →
      unwindFilter pf ctx = runHooks (unwound returned pf.subfilters) ctx
  | .mk pf bs, ctx, hw => by
    rw [subfilters_eq] at hw ⊢
    have hmark := hw.marked _ (.head _)
    rw [unwindFilter, unwound_cons]
    split
    · rename_i hexec
      rw [if_pos (hmark.symm.trans hexec), unwindBranches_eq bs ctx (hw.mono (subset_cons_self _ _))]
      exact runHooks_then fun ctx' _ => (runHooks_singleton (.mk pf bs) ctx').symm
    · rename_i hexec
      have hret := hmark.symm.trans (eq_false_iff.2 hexec)
      rw [unwound_below (hw.closed _ (.head _)) hret, if_neg (by rw [hret]; exact false_ne_true)]
      rfl

end

theorem responseLoop_eq {marks : List Bool} : ∀ (idx : Nat) (fs : List (PipelineFilter σ))
    (ctx : HttpFilterContext σ), ctx.books.executedFilterIndices = marks →
      (∀ i (pf : PipelineFilter σ), fs[i]? = some pf → marks[idx + i]? = some (returned pf.head.filterId)) →
      (∀ pf ∈ fs, Walkable returned ctx.books.executedBranchFilters (branchSubfilters pf.branches)) →
      (∀ pf ∈ fs, ∀ c ∈ branchSubfilters pf.branches,
        returned c.head.filterId = true → returned pf.head.filterId = true) →
      responseLoop idx fs ctx = runHooks (unwound returned (subfilters fs)) ctx
  | idx, [], ctx, _, _, _, _ => rfl
  | idx, pf :: fs, ctx, hmarks, htop, hw, hclosed => by
    have hself : marks[idx]? = some (returned pf.head.filterId) := htop 0 pf rfl
    rw [responseLoop, subfilters, subfilters_eq, unwound_append, unwound_cons,
      responseLoop_eq (idx + 1) fs ctx hmarks
        (fun i p hp => by rw [Nat.add_assoc, Nat.add_comm 1]; exact htop (i + 1) p hp)
        (fun p hp => hw p (.tail _ hp)) (fun p hp => hclosed p (.tail _ hp))]
    refine runHooks_then fun ctx' hbooks => ?_
    rw [hbooks, hmarks, hself]
    cases hret : returned pf.head.filterId with
    | false =>
      rw [unwound_below (hclosed pf (.head _)) hret]
      rfl
    | true =>
      show (match unwindBranches pf.branches ctx' with
        | (ctx, .ok none) => runResponseHook pf.head ctx
        | stopped => stopped) = _
      rw [unwindBranches_eq pf.branches ctx' (hbooks ▸ hw pf (.head _)), if_pos rfl]
      exact runHooks_then fun ctx'' _ => (runHooks_singleton pf ctx'').symm

end

/-- The HTTP filters of the tree with a request call in `log` that returned, in structural order. -/
def returnedFilters (flt : List (PipelineFilter σ)) (log : List Event) : List (PipelineFilter σ) :=
  (subfilters flt).filter fun pf => pf.head.filter.isHttp && hasReturned pf.head.filterId log

theorem Paired.walkable (h : Paired flt ctx) {pf : PipelineFilter σ} (hpf : pf ∈ flt) :
    Walkable (hasReturned · ctx.log) ctx.books.executedBranchFilters (branchSubfilters pf.branches) :=
  ⟨fun c hc => h.nested pf hpf c hc, fun c hc => h.closed c (branchSubfilters_subset hpf hc)⟩

/-- The response phase runs the hooks of the filters whose calls returned, last first. -/
theorem Paired.responseLoop {flt : List (PipelineFilter σ)} {ctx : HttpFilterContext σ} (h : Paired flt ctx) :
    Praxis.Pipeline.responseLoop 0 flt ctx = runHooks (returnedFilters flt ctx.log).reverse ctx := by
  have hreturned : (returnedFilters flt ctx.log).reverse = unwound (hasReturned · ctx.log) (subfilters flt) := by
    refine congrArg reverse (filter_congr fun pf hpf => ?_)
    show (pf.head.filter.isHttp && hasReturned pf.head.filterId ctx.log) = hasReturned pf.head.filterId ctx.log
    cases hret : hasReturned pf.head.filterId ctx.log with
    | false => exact and_false _
    | true => rw [h.http pf hpf hret]; rfl
  rw [hreturned]
  exact responseLoop_eq 0 flt ctx rfl (fun i pf hpf => by rw [Nat.zero_add]; exact h.top i pf hpf)
    (fun pf hpf => h.walkable hpf) fun pf hpf => h.closed pf (mem_subfilters hpf)

/-- The context as the response phase starts from it. -/
def responseStart (flt : List (PipelineFilter σ)) (ctx : HttpFilterContext σ) : HttpFilterContext σ :=
  { ctx with books := { ctx.books with bodyDoneIndices := replicate flt.length false } }

theorem Paired.executeHttpResponse_eq (h : Paired flt ctx) : Praxis.Pipeline.executeHttpResponse flt ctx =
      match runHooks (returnedFilters flt ctx.log).reverse (responseStart flt ctx) with
      | (ctx, .ok none) => (ctx, .ok .proceed)
      | (ctx, .ok (some r)) => (ctx, .ok (.reject r))
      | (ctx, .error e) => (ctx, .error e) := by
  have hstart : Paired flt (responseStart flt ctx) := h.congr (fun _ => rfl) rfl rfl
  have hloop : Praxis.Pipeline.responseLoop 0 flt (responseStart flt ctx) =
      runHooks (returnedFilters flt ctx.log).reverse (responseStart flt ctx) := hstart.responseLoop
  rw [← hloop]
  rfl

/-- A response phase that nothing stops considers the filters whose calls returned, last first. -/
theorem Paired.executeHttpResponse (h : Paired flt ctx)
    (hrun : Praxis.Pipeline.executeHttpResponse flt ctx = (ctx', .ok .proceed)) :
    ctx'.log = ctx.log ++
      ((returnedFilters flt ctx.log).map fun pf => .considered pf.head.filterId).reverse := by
  have hhttp : ∀ pf ∈ (returnedFilters flt ctx.log).reverse, pf.head.filter.isHttp = true := fun pf hpf =>
    (and_eq_true_iff.1 (mem_filter.1 (mem_reverse.1 hpf)).2).1
  rw [h.executeHttpResponse_eq] at hrun
  split at hrun
  · rename_i ctx₁ heq
    cases hrun
    rw [runHooks_passed hhttp heq, map_reverse]
    rfl
  · cases hrun
  · cases hrun

theorem Paired.executeHttpResponse_fst (h : Paired flt ctx) : (Praxis.Pipeline.executeHttpResponse flt ctx).1 =
      (runHooks (returnedFilters flt ctx.log).reverse (responseStart flt ctx)).1 := by
  rw [h.executeHttpResponse_eq]
  split <;> rename_i heq <;> rw [heq]

/-- Request and response hooks are paired: after any request phase, a response phase in which no
hook rejects or fails considers exactly the HTTP filters with a request call that returned, each
once, in reverse structural order. The exchange may change between the phases. -/
theorem response_considers_returned {reg : FilterRegistry σ κ} {chains : String → Option (List (FilterEntry κ))}
    {entries : List (FilterEntry κ)} {flt : List (PipelineFilter σ)}
    (hbuild : buildWithChains reg chains entries = .ok flt) {fuel : Nat} {ctx ctx₁ ctx₂ : HttpFilterContext σ}
    {result : Except Abort FilterAction}
    (hrequest : executeHttpRequest flt fuel { ctx with log := [] } = some (ctx₁, result))
    {exchange : Exchange σ}
    (hresponse : executeHttpResponse flt { ctx₁ with exchange := exchange } = (ctx₂, .ok .proceed)) :
    ctx₂.log = ctx₁.log ++ ((returnedFilters flt ctx₁.log).map fun pf => .considered pf.head.filterId).reverse ∧
      ((returnedFilters flt ctx₁.log).map (·.head.filterId)).Nodup := by
  have hres := buildWithChains_resolved hbuild
  have hpaired : Paired flt ctx₁ := Paired.executeHttpRequest hres rfl hrequest
  have hpaired' : Paired flt { ctx₁ with exchange := exchange } := hpaired.congr (fun _ => rfl) rfl rfl
  exact ⟨hpaired'.executeHttpResponse hresponse, (filter_sublist.map _).nodup hres.ids⟩

/-- Two filters, the second with a branch that runs a third and goes back once. -/
def loopingEntries : List (FilterEntry Unit) :=
  [.mk (.plain "headers" (some "start")) none,
   .mk (.plain "guardrails" none) (some [.mk
     { name := "again", maxIterations := some 1, onResult := none, rejoin := "start" }
     [.inline "again_chain" [.mk (.plain "access_log" none) none]]])]

/-- What the build makes of `loopingEntries`. -/
def loopingFilters : List (PipelineFilter Unit) :=
  [.mk (.plain 0 (some "start") (.http (.noop "headers"))) [],
   .mk (.plain 1 none (.http (.noop "guardrails")))
     [.mk { name := "again", condition := none, maxIterations := some 1, rejoin := .reEnter 0 }
       [.mk (.plain 2 none (.http (.noop "access_log"))) []]]]

/-- Both top-level filters are called twice, the one in the branch once; the response phase
considers each once. -/
theorem loopingFilters_paired :
    ∃ ctx₁ result ctx₂,
      executeHttpRequest loopingFilters 5 { fresh ⟨"GET", "/", []⟩ () with log := [] } =
        some (ctx₁, result) ∧
      executeHttpResponse loopingFilters { ctx₁ with exchange := ctx₁.exchange } = (ctx₂, .ok .proceed) ∧
      (returnedFilters loopingFilters ctx₁.log).map (·.head.filterId) = [0, 1, 2] ∧
      ctx₂.log = ctx₁.log ++
        ((returnedFilters loopingFilters ctx₁.log).map fun pf => .considered pf.head.filterId).reverse ∧
      ((returnedFilters loopingFilters ctx₁.log).map (·.head.filterId)).Nodup := by
  have hruns : (executeHttpRequest loopingFilters 5
      { fresh ⟨"GET", "/", []⟩ () with log := [] }).any (fun r =>
        decide ((executeHttpResponse loopingFilters { r.1 with exchange := r.1.exchange }).2 = .ok .proceed ∧
          (returnedFilters loopingFilters r.1.log).map (·.head.filterId) = [0, 1, 2])) = true := by decide +kernel
  cases hrequest : executeHttpRequest loopingFilters 5
      { fresh ⟨"GET", "/", []⟩ () with log := [] } with
  | none =>
    rw [hrequest] at hruns
    cases hruns
  | some r =>
    rw [hrequest] at hruns
    obtain ⟨hpassed, hids⟩ := of_decide_eq_true hruns
    have hresponse : executeHttpResponse loopingFilters { r.1 with exchange := r.1.exchange } =
      ((executeHttpResponse loopingFilters { r.1 with exchange := r.1.exchange }).1, .ok .proceed) :=
      Prod.ext rfl hpassed
    exact ⟨r.1, r.2, _, rfl, hresponse, hids, response_considers_returned
      (show buildWithChains noopRegistry (fun _ => none) loopingEntries = .ok loopingFilters from rfl)
      hrequest hresponse⟩

end Praxis.Pipeline
