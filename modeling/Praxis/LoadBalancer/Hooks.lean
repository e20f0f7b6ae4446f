/-
What the phases of the pipeline do to the accounts of a request. In the request phase at most one load
balancer selects, and from then on the accounts stand. In the response phase the hooks of the filters that
ran are called, and the load balancer that selected is one of them.
-/
import Praxis.LoadBalancer.Filter
import Praxis.Pipeline.Pairing
import Praxis.Pipeline.Termination

namespace Praxis.LoadBalancer

open List

open Praxis.Lib (Entry Owes owes_nil)
open Praxis.Pipeline
open Praxis.Retry (RetryPolicy)

variable {τ : Type}

/-! ## Pipelines -/

def isLoadBalancer {σ : Type} (pf : PipelineFilter σ) : Bool := pf.head.filter.name == "load_balancer"

/-- A filter that leaves the accounts alone, and takes no metadata away. -/
structure Bystander (f : HttpFilter (World τ)) : Prop where
  onRequest : ∀ books ex, (f.onRequest books ex).1.world.accounts = ex.world.accounts
  metadata : ∀ books ex, ex.world.otherMetadata ≤ (f.onRequest books ex).1.world.otherMetadata
  onResponse : ∀ books ex, (f.onResponse books ex).1.world.accounts = ex.world.accounts

/-- A pipeline of load balancers and filters that leave the accounts alone. -/
structure Equipped (filters : List (PipelineFilter (World τ))) : Prop where
  balancer : ∀ pf ∈ subfilters filters, isLoadBalancer pf = true →
    ∃ lb : LoadBalancerFilter τ, pf.head.filter = .http lb.toHttpFilter
  other : ∀ pf ∈ subfilters filters, isLoadBalancer pf = false → ∀ f, pf.head.filter = .http f → Bystander f

/-- The response hook never rejects the response and never fails. -/
def Passes {σ : Type} (pf : PipelineFilter σ) : Prop :=
  ∀ f, pf.head.filter = .http f → ∀ books ex, responseOutcome (f.onResponse books ex).2 pf.head.failureMode = .ok none

/-- No response hook takes away the endpoint that a load balancer selected, no response condition stands
before a load balancer, and no response hook before it stops the phase. -/
structure Steady (filters : List (PipelineFilter (World τ))) : Prop where
  response : ∀ pf ∈ subfilters filters, isLoadBalancer pf = false → ∀ f, pf.head.filter = .http f → ∀ books ex,
    (f.onResponse books ex).1.cluster = ex.cluster ∧ (f.onResponse books ex).1.upstream = ex.upstream
  unconditional : ∀ pf ∈ subfilters filters, isLoadBalancer pf = true → pf.head.responseConditions = []
  reached : (subfilters filters).Pairwise fun p q => isLoadBalancer p = true → Passes q

/-- A filter that sets neither the cluster nor the upstream of a request. -/
def Keeps (pf : PipelineFilter (World τ)) : Prop :=
  ∀ f, pf.head.filter = .http f → ∀ books ex,
    (f.onRequest books ex).1.cluster = ex.cluster ∧ (f.onRequest books ex).1.upstream = ex.upstream

/-- Once a load balancer had run, no filter was called that sets the cluster or the upstream. -/
def Unreplaced (filters : List (PipelineFilter (World τ))) (log : List Event) : Prop :=
  log.Pairwise fun e e' => ∀ p ∈ subfilters filters, isLoadBalancer p = true → e.isReturnOf p.head.filterId = true →
    ∀ q ∈ subfilters filters, isLoadBalancer q = false → e'.isCallOf q.head.filterId = true → Keeps q

variable {filters : List (PipelineFilter (World τ))}

theorem Unreplaced.mono {log log' : List Event} (h : Unreplaced filters log') (hp : log <+: log') :
    Unreplaced filters log := h.sublist hp.sublist

/-! ## The request phase -/

/-- The accounts of a request once a load balancer selected an endpoint. -/
def Accounts.opened (entry : ClusterEntry τ) (policy : RetryPolicy) (hashKey : Option String) (address : String) : Accounts τ where
  lbSelected := true
  retryPolicy := some policy
  clusterRetryState := some entry.retryState
  clusterRetryStateReleased := false
  endpointReselector := some { strategy := entry.strategy, hashKey }
  ledger := [.taken (.slot entry.strategy.id address), .taken (.lease entry.retryState)]

variable {lb : LoadBalancerFilter τ} {entry : ClusterEntry τ} {ctx ctx' : HttpFilterContext (World τ)}

theorem LoadBalancerFilter.resolveCluster_get {ex : Exchange (World τ)} {cluster : String}
    (h : lb.resolveCluster ex = .ok (cluster, entry)) : lb.get cluster = some entry := by
  unfold resolveCluster resolveFromRouter resolveFromBoundUpstream at h
  repeat' split at h
  all_goals cases h
  all_goals assumption

/-- A load balancer sets no metadata but its mark. -/
theorem LoadBalancerFilter.onRequest_metadata (lb : LoadBalancerFilter τ) (books : Bookkeeping) (ex : Exchange (World τ)) :
    (lb.onRequest books ex).1.world.otherMetadata = ex.world.otherMetadata := by
  unfold onRequest
  split
  · split <;> rfl
  · split
    · rfl
    · dsimp only
      split
      · rfl
      · unfold selectEndpoint
        split <;> rfl

/-- A load balancer leaves an upstream that is there, and selects at most once. -/
theorem LoadBalancerFilter.onRequest_spec (lb : LoadBalancerFilter τ) (books : Bookkeeping) (ex : Exchange (World τ)) :
    ((lb.onRequest books ex).1.world.accounts = ex.world.accounts ∧
      (ex.upstream.isSome → (lb.onRequest books ex).1.cluster = ex.cluster ∧
        (lb.onRequest books ex).1.upstream = ex.upstream)) ∨
    (ex.upstream = none ∧ (lb.onRequest books ex).2 = .ok .proceed ∧
      ∃ cluster entry policy hashKey address, (lb.onRequest books ex).1.cluster = some cluster ∧
        lb.get cluster = some entry ∧ (lb.onRequest books ex).1.upstream = some { address } ∧
        (ex.world.accounts = .blank τ → ex.world.otherMetadata < maxMetadataEntries →
          (lb.onRequest books ex).1.world.accounts = .opened entry policy hashKey address.str)) := by
  unfold onRequest
  split
  · rename_i hsome
    left
    split <;> exact ⟨rfl, fun _ => ⟨rfl, rfl⟩⟩
  · rename_i hnone
    split
    · exact .inl ⟨rfl, fun h => absurd h hnone⟩
    · rename_i cluster entry hresolved
      dsimp only
      split
      · exact .inl ⟨rfl, fun h => absurd h hnone⟩
      · unfold selectEndpoint
        dsimp only
        split
        · exact .inl ⟨rfl, fun h => absurd h hnone⟩
        · rename_i address outside _
          refine .inr ⟨by simpa using hnone, rfl, cluster, entry,
            ex.world.routeRetryPolicy.elim entry.retryPolicy (mergeOverride entry.retryPolicy),
            entry.strategy.hashKey ex.request, address, rfl, resolveCluster_get hresolved, rfl, ?_⟩
          intro hblank hroom
          simp [ClusterEntry.settle, ClusterEntry.publish, World.marked, hblank, hroom, Accounts.blank, Accounts.opened]

/-- The load balancer `lb` of the tree ran, and its entry for the cluster is `entry`. -/
structure SelectedBy (filters : List (PipelineFilter (World τ))) (ctx : HttpFilterContext (World τ)) (p : PipelineFilter (World τ))
    (lb : LoadBalancerFilter τ) (entry : ClusterEntry τ) : Prop where
  mem : p ∈ subfilters filters
  filter : p.head.filter = .http lb.toHttpFilter
  returned : Returned p.head.filterId ctx.log
  cluster : ∃ cluster, ctx.exchange.cluster = some cluster ∧ lb.get cluster = some entry

theorem SelectedBy.congr {p : PipelineFilter (World τ)} (h : SelectedBy filters ctx p lb entry)
    (hcluster : ctx'.exchange.cluster = ctx.exchange.cluster) (hlog : ctx.log <+: ctx'.log) :
    SelectedBy filters ctx' p lb entry :=
  ⟨h.mem, h.filter, h.returned.mono hlog, by rw [hcluster]; exact h.cluster⟩

/-- What the request phase can leave of the accounts. -/
def Accounted (filters : List (PipelineFilter (World τ))) (ctx : HttpFilterContext (World τ)) : Prop :=
  ctx.exchange.world.accounts = .blank τ ∨
  ∃ p lb entry policy hashKey address, SelectedBy filters ctx p lb entry ∧ ctx.exchange.upstream = some { address } ∧
    ctx.exchange.world.accounts = .opened entry policy hashKey address.str

theorem Accounted.undisturbed (hu : Undisturbed ctx ctx') (h : Accounted filters ctx) : Accounted filters ctx' := by
  unfold Accounted
  rw [hu.world, hu.upstream]
  refine h.imp id ?_
  rintro ⟨p, lb, entry, policy, hashKey, address, hby, hrest⟩
  exact ⟨p, lb, entry, policy, hashKey, address, hby.congr hu.cluster hu.log, hrest⟩

section

variable {filters : List (PipelineFilter (World τ))}
  {p : PipelineFilter (World τ)} {lb : LoadBalancerFilter τ} {ctx : HttpFilterContext (World τ)}
  {entry : ClusterEntry τ} {pfs : List (PipelineFilter (World τ))}

theorem isLoadBalancer_of_filter (h : p.head.filter = .http lb.toHttpFilter) : isLoadBalancer p = true := by
  rw [isLoadBalancer, h]
  rfl

variable {pf : PipelineFilter (World τ)} {f : HttpFilter (World τ)} {cluster : String} {σ : Type}

theorem Unreplaced.keeps (hpf : pf ∈ subfilters filters) (hlb : isLoadBalancer pf = false)
    (h : Unreplaced filters (callOnRequest pf.head f ctx).1.log) (hby : SelectedBy filters ctx p lb entry) : Keeps pf := by
  rw [callOnRequest_log] at h
  obtain ⟨e, he, hreturn⟩ := any_eq_true.1 (hasReturned_iff.2 hby.returned)
  refine (pairwise_append.1 h).2.2 e he _ (mem_singleton_self _) p hby.mem (isLoadBalancer_of_filter hby.filter)
    hreturn pf hpf hlb ?_
  exact beq_self_eq_true _

/-- No call takes metadata away. -/
theorem Equipped.metadata_le (hequipped : Equipped filters) (hpf : pf ∈ subfilters filters) (hf : pf.head.filter = .http f)
    (ctx : HttpFilterContext (World τ)) :
    ctx.exchange.world.otherMetadata ≤ (callOnRequest pf.head f ctx).1.exchange.world.otherMetadata := by
  let entered : Exchange (World τ) := { ctx.exchange with currentFilterId := some pf.head.filterId }
  cases hlb : isLoadBalancer pf with
  | false => exact (hequipped.other pf hpf hlb f hf).metadata ctx.books entered
  | true =>
    obtain ⟨lb, hlb⟩ := hequipped.balancer pf hpf hlb
    obtain rfl : f = lb.toHttpFilter := by rw [hlb] at hf; cases hf; rfl
    exact Nat.le_of_eq (lb.onRequest_metadata ctx.books entered).symm

theorem Accounted.called (hequipped : Equipped filters) (hpf : pf ∈ subfilters filters) (hf : pf.head.filter = .http f)
    (hunreplaced : Unreplaced filters (callOnRequest pf.head f ctx).1.log)
    (hroom : ctx.exchange.world.otherMetadata < maxMetadataEntries) (h : Accounted filters ctx) :
    Accounted filters (callOnRequest pf.head f ctx).1 := by
  have hgrows : ctx.log <+: (callOnRequest pf.head f ctx).1.log := by
    rw [callOnRequest_log]
    exact prefix_append _ _
  -- A call that leaves the accounts, the cluster and the upstream keeps whatever was there.
  have hkeeps : (callOnRequest pf.head f ctx).1.exchange.world.accounts = ctx.exchange.world.accounts →
      (∀ p lb entry, SelectedBy filters ctx p lb entry → ctx.exchange.upstream.isSome = true →
        (callOnRequest pf.head f ctx).1.exchange.cluster = ctx.exchange.cluster ∧
        (callOnRequest pf.head f ctx).1.exchange.upstream = ctx.exchange.upstream) →
      Accounted filters (callOnRequest pf.head f ctx).1 := by
    intro haccounts hrest
    rcases h with hblank | ⟨p, lb, entry, policy, hashKey, address, hby, hupstream, hopened⟩
    · exact .inl (haccounts.trans hblank)
    · obtain ⟨hcluster, hup⟩ := hrest p lb entry hby (by rw [hupstream]; rfl)
      exact .inr ⟨p, lb, entry, policy, hashKey, address, hby.congr hcluster hgrows, hup.trans hupstream,
        haccounts.trans hopened⟩
  cases hlb : isLoadBalancer pf with
  | false =>
    exact hkeeps ((hequipped.other pf hpf hlb f hf).onRequest _ _) fun _ _ _ hby _ =>
      hunreplaced.keeps hpf hlb hby f hf ctx.books { ctx.exchange with currentFilterId := some pf.head.filterId }
  | true =>
    obtain ⟨lb, hlb⟩ := hequipped.balancer pf hpf hlb
    obtain rfl : f = lb.toHttpFilter := by rw [hlb] at hf; cases hf; rfl
    rcases lb.onRequest_spec ctx.books { ctx.exchange with currentFilterId := some pf.head.filterId } with
      ⟨haccounts, hrest⟩ | ⟨hnone, hok, cluster, entry, policy, hashKey, address, hcluster, hget, hupstream, hopened⟩
    · exact hkeeps haccounts fun _ _ _ _ hsome => hrest hsome
    · rcases h with hblank | ⟨-, -, -, -, -, address', -, hupstream', -⟩
      · refine .inr ⟨pf, lb, entry, policy, hashKey, address, ⟨hpf, hlb, ?_, cluster, hcluster, hget⟩, hupstream,
          hopened hblank hroom⟩
        have hreturned : propagates (callOnRequest pf.head lb.toHttpFilter ctx).2 pf.head.failureMode = false := by
          show propagates (lb.onRequest ctx.books { ctx.exchange with currentFilterId := some pf.head.filterId }).2 _ = false
          rw [hok]
          rfl
        exact returned_callOnRequest hreturned
      · exact absurd (hupstream'.symm.trans hnone) (by simp)

/-- A request phase that ends with room for the mark leaves the accounts as they were, or opened by one load balancer. -/
theorem Accounted.executeHttpRequest (hequipped : Equipped filters) {fuel : Nat} {r : RequestEnd (World τ)}
    (hblank : ctx.exchange.world.accounts = .blank τ) (hrun : Pipeline.executeHttpRequest filters fuel ctx = some r)
    (hunreplaced : Unreplaced filters r.1.log) (hroom : r.1.exchange.world.otherMetadata < maxMetadataEntries) :
    Accounted filters r.1 := by
  refine executeHttpRequest_invariant (I := fun ctx => Unreplaced filters ctx.log →
    ctx.exchange.world.otherMetadata < maxMetadataEntries → Accounted filters ctx) ?_ ?_ (fun _ _ => .inl hblank) hrun
    hunreplaced hroom
  · intro ctx ctx' hu h hlog hroom
    rw [hu.world] at hroom
    exact (h (hlog.mono hu.log) hroom).undisturbed hu
  · intro pf hpf f hf ctx h hlog hroom
    have hbefore := Nat.lt_of_le_of_lt (hequipped.metadata_le hpf hf ctx) hroom
    refine (h (hlog.mono ?_) hbefore).called hequipped hpf hf hlog hbefore
    rw [callOnRequest_log]
    exact prefix_append _ _

/-! ## The response phase -/

/-- What `on_response` of the load balancer that selected does to the accounts. -/
def Accounts.settled (a : Accounts τ) (entry : ClusterEntry τ) (upstream : Option Upstream) : Accounts τ :=
  { a with
    ledger := a.ledger ++ upstream.toList.map (fun u => .given (.slot entry.strategy.id u.address.str)) ++
      a.clusterRetryState.toList.map fun state => .given (.lease state)
    clusterRetryStateReleased := a.clusterRetryStateReleased || a.clusterRetryState.isSome }

theorem LoadBalancerFilter.onResponse_settled (lb : LoadBalancerFilter τ) (books : Bookkeeping) {ex : Exchange (World τ)}
    (hselected : ex.world.accounts.lbSelected = true) (hcluster : ex.cluster = some cluster)
    (hget : lb.get cluster = some entry) :
    (lb.onResponse books ex).1.world.accounts = ex.world.accounts.settled entry ex.upstream := by
  obtain ⟨_, _, cluster', upstream, _, _, _, _, _, ⟨_, _, _, _, _, _, ⟨selected, _, state, _, _, _⟩, _⟩⟩ := ex
  simp only at hselected hcluster
  subst hselected hcluster
  cases upstream <;> cases state <;> simp [onResponse, Accounts.settled, World.release, World.enter, hget]

/-- A load balancer's response hook lets the response pass, and leaves the cluster and the upstream. -/
theorem LoadBalancerFilter.onResponse_frame (lb : LoadBalancerFilter τ) (books : Bookkeeping) (ex : Exchange (World τ)) :
    (lb.onResponse books ex).2 = .ok .proceed ∧
    (lb.onResponse books ex).1.world.accounts.lbSelected = ex.world.accounts.lbSelected ∧
    (ex.world.accounts.lbSelected = false → (lb.onResponse books ex).1 = ex) := by
  unfold onResponse
  split
  · exact ⟨rfl, rfl, fun _ => rfl⟩
  · rename_i hselected
    have hnot : ex.world.accounts.lbSelected ≠ false := by simpa using hselected
    dsimp only
    split <;> split <;> exact ⟨rfl, rfl, fun h => absurd h hnot⟩

theorem runResponseHook_exchange {P : Exchange σ → Prop} (pf : FilterHead σ) (ctx : HttpFilterContext σ)
    (hquiet : ∀ ex ex', ex'.cluster = ex.cluster → ex'.upstream = ex.upstream → ex'.world = ex.world → P ex → P ex')
    (hhook : ∀ f, pf.filter = .http f → ∀ books ex, P ex → P (f.onResponse books ex).1) (h : P ctx.exchange) :
    P (runResponseHook pf ctx).1.exchange := by
  unfold runResponseHook
  split
  · exact h
  · rename_i f hf
    dsimp only
    split
    · exact h
    · let entered : Exchange σ := { ctx.exchange with currentFilterId := some pf.filterId }
      exact hquiet (f.onResponse ctx.books entered).1 _ rfl rfl rfl
        (hhook f hf ctx.books entered (hquiet ctx.exchange entered rfl rfl rfl h))

/-- A response phase does not forget whether something was selected, and leaves the accounts if nothing was. -/
theorem runHooks_selected (hequipped : Equipped filters) (hpfs : pfs ⊆ subfilters filters) {a : Accounts τ}
    (h : ctx.exchange.world.accounts = a) : (runHooks pfs ctx).1.exchange.world.accounts.lbSelected = a.lbSelected ∧
      (a.lbSelected = false → (runHooks pfs ctx).1.exchange.world.accounts = a) := by
  let P : Exchange (World τ) → Prop := fun ex =>
    ex.world.accounts.lbSelected = a.lbSelected ∧ (a.lbSelected = false → ex.world.accounts = a)
  refine runHooks_invariant (I := fun ctx => P ctx.exchange) (fun pf hpf ctx h => ?_) ⟨congrArg _ h, fun _ => h⟩
  refine runResponseHook_exchange (P := P) pf.head ctx (fun _ _ _ _ hw h => ⟨hw ▸ h.1, fun hnone => hw ▸ h.2 hnone⟩)
    (fun f hf books ex hex => ?_) h
  cases hlb : isLoadBalancer pf with
  | false =>
    have hsame := (hequipped.other pf (hpfs hpf) hlb f hf).onResponse books ex
    exact ⟨(congrArg _ hsame).trans hex.1, fun hselected => hsame.trans (hex.2 hselected)⟩
  | true =>
    obtain ⟨lb, hlb⟩ := hequipped.balancer pf (hpfs hpf) hlb
    obtain rfl : f = lb.toHttpFilter := by rw [hlb] at hf; cases hf; rfl
    obtain ⟨-, hselected, hsame⟩ := lb.onResponse_frame books ex
    refine ⟨hselected.trans hex.1, fun hnone => ?_⟩
    show (lb.onResponse books ex).1.world.accounts = a
    rw [hsame (hex.1.trans hnone)]
    exact hex.2 hnone

theorem runHooks_log (pfs : List (PipelineFilter σ)) (ctx : HttpFilterContext σ) : ctx.log <+: (runHooks pfs ctx).1.log := by
  refine runHooks_invariant (I := fun ctx' : HttpFilterContext σ => ctx.log <+: ctx'.log) (fun pf _ ctx' h => ?_)
    (prefix_refl _)
  refine h.trans ?_
  unfold runResponseHook
  split
  · exact prefix_refl _
  · dsimp only
    split
    · exact prefix_append _ _
    · exact prefix_append _ _

theorem runHooks_others (hequipped : Equipped filters) (hsteady : Steady filters) (hpfs : pfs ⊆ subfilters filters)
    (hothers : ∀ pf ∈ pfs, isLoadBalancer pf = false) (ctx : HttpFilterContext (World τ)) :
    (runHooks pfs ctx).1.exchange.cluster = ctx.exchange.cluster ∧
      (runHooks pfs ctx).1.exchange.upstream = ctx.exchange.upstream ∧
      (runHooks pfs ctx).1.exchange.world.accounts = ctx.exchange.world.accounts := by
  let P : Exchange (World τ) → Prop := fun ex =>
    ex.cluster = ctx.exchange.cluster ∧ ex.upstream = ctx.exchange.upstream ∧ ex.world.accounts = ctx.exchange.world.accounts
  refine runHooks_invariant (I := fun ctx => P ctx.exchange) (fun pf hpf ctx' h => ?_) ⟨rfl, rfl, rfl⟩
  refine runResponseHook_exchange (P := P) pf.head ctx' ?_ (fun f hf books ex hex => ?_) h
  · rintro ex ex' hcluster hupstream hworld ⟨h₁, h₂, h₃⟩
    exact ⟨hcluster.trans h₁, hupstream.trans h₂, hworld ▸ h₃⟩
  · obtain ⟨hcluster, hupstream⟩ := hsteady.response pf (hpfs hpf) (hothers pf hpf) f hf books ex
    have haccounts := (hequipped.other pf (hpfs hpf) (hothers pf hpf) f hf).onResponse books ex
    exact ⟨hcluster.trans hex.1, hupstream.trans hex.2.1, haccounts.trans hex.2.2⟩

theorem runHooks_passes {σ : Type} : ∀ {pfs : List (PipelineFilter σ)} (ctx : HttpFilterContext σ),
    (∀ pf ∈ pfs, Passes pf) → (runHooks pfs ctx).2 = .ok none
  | [], _, _ => rfl
  | pf :: rest, ctx, h => by
    have hfirst : (runResponseHook pf.head ctx).2 = .ok none := by
      unfold runResponseHook
      split
      · rfl
      · rename_i f hf
        dsimp only
        split
        · rfl
        · exact h pf (.head _) f hf _ _
    rw [runHooks]
    split
    · exact runHooks_passes _ fun p hp => h p (.tail _ hp)
    · rename_i hstop
      exact (hstop (runResponseHook pf.head ctx).1 (Prod.ext rfl hfirst)).elim

/-- The load balancers that ran in the request phase. -/
def ranBalancers (filters : List (PipelineFilter (World τ))) (log : List Event) : List (PipelineFilter (World τ)) :=
  (returnedFilters filters log).filter isLoadBalancer

theorem ran_split (hone : (ranBalancers filters ctx.log).length ≤ 1) (hby : SelectedBy filters ctx p lb entry) :
    ∃ pre post, returnedFilters filters ctx.log = pre ++ p :: post ∧ (∀ q ∈ pre ++ post, isLoadBalancer q = false) := by
  have hmem : p ∈ returnedFilters filters ctx.log := by
    refine mem_filter.2 ⟨hby.mem, ?_⟩
    rw [hasReturned_iff.2 hby.returned, hby.filter]
    rfl
  obtain ⟨pre, post, hsplit⟩ := append_of_mem hmem
  refine ⟨pre, post, hsplit, fun q hq => ?_⟩
  rw [ranBalancers, hsplit, filter_append, filter_cons_of_pos (isLoadBalancer_of_filter hby.filter),
    length_append, length_cons] at hone
  have hpre : pre.filter isLoadBalancer = [] := eq_nil_of_length_eq_zero (by omega)
  have hpost : post.filter isLoadBalancer = [] := eq_nil_of_length_eq_zero (by omega)
  rcases mem_append.1 hq with hq | hq
  · simpa using filter_eq_nil_iff.1 hpre q hq
  · simpa using filter_eq_nil_iff.1 hpost q hq

theorem runResponseHook_settled (hsteady : Steady filters) (hp : p ∈ subfilters filters)
    (hfilter : p.head.filter = .http lb.toHttpFilter) (hcluster : ctx.exchange.cluster = some cluster)
    (hget : lb.get cluster = some entry) (hselected : ctx.exchange.world.accounts.lbSelected = true) :
    (runResponseHook p.head ctx).2 = .ok none ∧
      (runResponseHook p.head ctx).1.exchange.world.accounts =
        ctx.exchange.world.accounts.settled entry ctx.exchange.upstream := by
  have hskip : ∀ ctx : HttpFilterContext (World τ), skipByResponseConditions p.head ctx = false := by
    intro ctx
    unfold skipByResponseConditions
    split
    · rfl
    · rw [hsteady.unconditional p hp (isLoadBalancer_of_filter hfilter)]
      rfl
  unfold runResponseHook
  rw [hfilter]
  simp only [hskip, Bool.false_eq_true, if_false]
  have hframe := lb.onResponse_frame ctx.books { ctx.exchange with currentFilterId := some p.head.filterId }
  constructor
  · show responseOutcome (lb.onResponse ctx.books { ctx.exchange with currentFilterId := some p.head.filterId }).2 _ = _
    rw [hframe.1]
    rfl
  · show (lb.onResponse ctx.books { ctx.exchange with currentFilterId := some p.head.filterId }).1.world.accounts = _
    exact lb.onResponse_settled ctx.books hselected hcluster hget

/-- The response phase settles the accounts, if the load balancer that selected is the only one that ran. -/
theorem executeHttpResponse_settled (hequipped : Equipped filters) (hsteady : Steady filters) (hpaired : Paired filters ctx)
    (hone : (ranBalancers filters ctx.log).length ≤ 1) (hby : SelectedBy filters ctx p lb entry)
    (hselected : ctx.exchange.world.accounts.lbSelected = true) :
    (executeHttpResponse filters ctx).1.exchange.world.accounts =
      ctx.exchange.world.accounts.settled entry ctx.exchange.upstream := by
  obtain ⟨pre, post, hsplit, hothers⟩ := ran_split hone hby
  obtain ⟨cluster, hcluster, hget⟩ := hby.cluster
  have hran : (returnedFilters filters ctx.log).Sublist (subfilters filters) := filter_sublist
  have hpre : pre.reverse ⊆ subfilters filters := fun q hq =>
    hran.subset (hsplit ▸ mem_append_left _ (mem_reverse.1 hq))
  have hpost : post.reverse ⊆ subfilters filters := fun q hq =>
    hran.subset (hsplit ▸ mem_append_right _ (.tail _ (mem_reverse.1 hq)))
  -- The hooks of the filters behind the load balancer run first, and none of them stops the phase.
  have hpasses : ∀ q ∈ post.reverse, Passes q := by
    intro q hq
    have hpairs := hsteady.reached.sublist hran
    rw [hsplit] at hpairs
    exact (pairwise_cons.1 (pairwise_append.1 hpairs).2.1).1 q (mem_reverse.1 hq)
      (isLoadBalancer_of_filter hby.filter)
  obtain ⟨hc₁, hu₁, ha₁⟩ := runHooks_others hequipped hsteady hpost
    (fun q hq => hothers q (mem_append_right _ (mem_reverse.1 hq))) (responseStart filters ctx)
  have hok₁ := runHooks_passes (responseStart filters ctx) hpasses
  generalize hfirst : runHooks post.reverse (responseStart filters ctx) = first at hc₁ hu₁ ha₁ hok₁
  obtain ⟨hok₂, ha₂⟩ := runResponseHook_settled hsteady hby.mem hby.filter (hc₁.trans hcluster) hget (by rw [ha₁]; exact hselected)
  generalize hsecond : runResponseHook p.head first.1 = second at hok₂ ha₂
  have ha₃ := (runHooks_others hequipped hsteady hpre
    (fun q hq => hothers q (mem_append_left _ (mem_reverse.1 hq))) second.1).2.2
  have hrun : runHooks (returnedFilters filters ctx.log).reverse (responseStart filters ctx) = runHooks pre.reverse second.1 := by
    rw [hsplit, reverse_append, reverse_cons, append_assoc, runHooks_append, hfirst, singleton_append]
    obtain ⟨ctx₁, o₁⟩ := first
    obtain ⟨ctx₂, o₂⟩ := second
    simp only at hok₁ hok₂
    subst hok₁ hok₂
    simp only [runHooks, hsecond]
  rw [hpaired.executeHttpResponse_fst, hrun, ha₃, ha₂, ha₁, hu₁]
  rfl

end

end Praxis.LoadBalancer
