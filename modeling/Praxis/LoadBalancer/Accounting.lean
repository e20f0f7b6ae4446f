/-
Load accounting over the whole life of a request. As long as a request is under way it owes a slot for the
endpoint it uses, if it uses one, and the lease of the cluster's retry state; whatever ends it gives both
back. At some steps the bookkeeping of the source loses track; `Orderly` says at which it does not.
-/
import Praxis.LoadBalancer.Flight
import Praxis.LoadBalancer.Hooks
import Praxis.Pipeline.Ordering
import Praxis.Lib.Machine

namespace Praxis.LoadBalancer

open Accounts List Option

open Praxis.Lib (Entry Owes Balanced owes_nil taken run Along run_invariant)
open Praxis.Pipeline
open Praxis.Retry (RetryPolicy RetryCtx RetryOutcome isRetriable shouldRetry_admits)

variable {τ : Type}

/-! ## What the operations leave -/

/-- The accounts with more entries in the ledger. -/
def Accounts.record (a : Accounts τ) (es : List (Entry Load)) : Accounts τ := { a with ledger := a.ledger ++ es }

@[simp] theorem Accounts.record_nil (a : Accounts τ) : a.record [] = a := by
  simp [record]

namespace Flight

/-- The states agree in everything but the accounts, the upstream in use and the counters. -/
structure Alongside (s t : Flight τ) : Prop where
  cluster : t.ctx.exchange.cluster = s.ctx.exchange.cluster
  upstream : t.ctx.exchange.upstream = s.ctx.exchange.upstream
  log : t.ctx.log = s.ctx.log
  books : t.ctx.books = s.ctx.books
  done : t.responsePhaseDone = s.responsePhaseDone
  phase : t.phase = s.phase

theorem Alongside.trans {s t u : Flight τ} (h : Alongside s t) (h' : Alongside t u) : Alongside s u :=
  ⟨h'.cluster.trans h.cluster, h'.upstream.trans h.upstream, h'.log.trans h.log, h'.books.trans h.books,
    h'.done.trans h.done, h'.phase.trans h.phase⟩

theorem alongside_setWorld {s : Flight τ} (w : World τ) : Alongside s (s.setWorld w) := ⟨rfl, rfl, rfl, rfl, rfl, rfl⟩

variable {s : Flight τ}

theorem Alongside.use {t : Flight τ} (h : Alongside s t) (upstream : Option Upstream) :
    Alongside s { t with upstreamForRetry := upstream } := ⟨h.cluster, h.upstream, h.log, h.books, h.done, h.phase⟩

theorem noteAttempted_spec (s : Flight τ) (address : ArcStr) :
    Alongside s (s.noteAttempted address) ∧ (s.noteAttempted address).accounts = s.accounts ∧
      (s.noteAttempted address).upstreamForRetry = s.upstreamForRetry ∧
      (s.noteAttempted address).reselectOnRetry = s.reselectOnRetry := by
  unfold noteAttempted
  split
  · exact ⟨⟨rfl, rfl, rfl, rfl, rfl, rfl⟩, rfl, rfl, rfl⟩
  · exact ⟨alongside_setWorld _, rfl, rfl, rfl⟩

theorem noteFailed_spec (s : Flight τ) :
    Alongside s s.noteFailed ∧ s.noteFailed.accounts = s.accounts ∧ s.noteFailed.upstreamForRetry = s.upstreamForRetry ∧
      s.noteFailed.reselectOnRetry = s.reselectOnRetry := by
  cases hup : s.upstreamForRetry with
  | none =>
    have heq : s.noteFailed = s := by rw [noteFailed, hup]; rfl
    rw [heq]
    exact ⟨⟨rfl, rfl, rfl, rfl, rfl, rfl⟩, rfl, hup, rfl⟩
  | some upstream =>
    have heq : s.noteFailed = s.noteAttempted upstream.address := by rw [noteFailed, hup]; rfl
    rw [heq, ← hup]
    exact noteAttempted_spec s upstream.address

/-- The policy a retry is decided under. -/
def policy (s : Flight τ) : RetryPolicy := s.accounts.retryPolicy.getD .legacyDefault

/-- What `clear_for_reselection` gives back. -/
def returnedSlots (s : Flight τ) : List (Entry Load) :=
  (s.upstreamForRetry.bind fun upstream => s.accounts.endpointReselector.map fun reselector =>
    .given (.slot reselector.strategy.id upstream.address.str)).toList

theorem clearForReselection_spec (s : Flight τ) :
    Alongside s s.clearForReselection ∧ s.clearForReselection.upstreamForRetry = none ∧
      s.clearForReselection.reselectOnRetry = s.reselectOnRetry ∧
      s.clearForReselection.accounts = s.accounts.record s.returnedSlots := by
  unfold clearForReselection
  split
  · rename_i upstream reselector hup hre
    have hslots : s.returnedSlots = [.given (.slot reselector.strategy.id upstream.address.str)] := by
      simp [returnedSlots, hup, hre]
    rw [hslots]
    exact ⟨⟨rfl, rfl, rfl, rfl, rfl, rfl⟩, rfl, rfl, rfl⟩
  · rename_i hnone
    have hslots : s.returnedSlots = [] := by
      unfold returnedSlots
      cases hup : s.upstreamForRetry with
      | none => rfl
      | some upstream =>
        cases hre : s.accounts.endpointReselector with
        | none => rfl
        | some reselector => exact (hnone upstream reselector hup hre).elim
    rw [hslots, record_nil]
    exact ⟨⟨rfl, rfl, rfl, rfl, rfl, rfl⟩, rfl, rfl, rfl⟩

/-- A retry keeps the endpoint, or under a configured policy gives it back. -/
theorem retryAfter_spec (s : Flight τ) (out : RetryOutcome) (seen : RetryCtx) (admits : Bool) (jitter : Nat) :
    s.retryAfter out seen admits jitter = (false, s) ∨
    ∃ t, s.retryAfter out seen admits jitter = (true, t) ∧ isRetriable s.policy out = true ∧ Alongside s t ∧
      t.reselectOnRetry = s.policy.configured ∧
      (s.policy.configured = false ∧ t.upstreamForRetry = s.upstreamForRetry ∧ t.accounts = s.accounts ∨
        s.policy.configured = true ∧ t.upstreamForRetry = none ∧ t.accounts = s.accounts.record s.returnedSlots) := by
  let counted := { s with retries := s.retries + 1, reselectOnRetry := s.policy.configured }
  have hretry : s.retryAfter out seen admits jitter = (false, s) ∨
      isRetriable s.policy out = true ∧ s.retryAfter out seen admits jitter =
        (true, if s.policy.configured then counted.noteFailed.clearForReselection else counted.noteFailed) := by
    unfold retryAfter
    dsimp only
    split
    · exact .inl rfl
    · rename_i hdecision
      exact .inr ⟨(shouldRetry_admits hdecision).retriable, rfl⟩
  refine hretry.imp id fun ⟨hretriable, heq⟩ => ⟨_, heq, hretriable, ?_⟩
  obtain ⟨hnoted, haccounts, hfor, hre⟩ := noteFailed_spec counted
  have halong : Alongside s counted.noteFailed := Alongside.trans (t := counted) ⟨rfl, rfl, rfl, rfl, rfl, rfl⟩ hnoted
  cases hconfigured : s.policy.configured with
  | false => exact ⟨halong, hre.trans hconfigured, .inl ⟨rfl, hfor, haccounts⟩⟩
  | true =>
    obtain ⟨hcleared, hnone, hre', haccounts'⟩ := clearForReselection_spec counted.noteFailed
    have hslots : counted.noteFailed.returnedSlots = s.returnedSlots := by
      rw [returnedSlots, returnedSlots, hfor, haccounts]
      rfl
    have hrecord : counted.noteFailed.clearForReselection.accounts = s.accounts.record s.returnedSlots := by
      rw [haccounts', hslots, haccounts]
      rfl
    exact ⟨halong.trans hcleared, (hre'.trans hre).trans hconfigured, .inr ⟨rfl, hnone, hrecord⟩⟩

theorem reselect_unasked {index : ArcStr → Option Nat} (h : s.reselectOnRetry = false) : s.reselect index = s := by
  rw [reselect, h]
  rfl

/-- A reselection takes a slot, if the strategy finds an endpoint, and gives back the one still in use. -/
theorem reselect_spec (index : ArcStr → Option Nat) (hre : s.reselectOnRetry = true) :
    Alongside s (s.reselect index) ∧ (s.reselect index).reselectOnRetry = false ∧
      ((s.reselect index).upstreamForRetry = s.upstreamForRetry ∧ (s.reselect index).accounts = s.accounts ∨
        ∃ reselector address, s.accounts.endpointReselector = some reselector ∧
          (s.reselect index).upstreamForRetry = some { address } ∧
          (s.reselect index).accounts = s.accounts.record (.taken (.slot reselector.strategy.id address.str) ::
            s.upstreamForRetry.toList.map fun u => .given (.slot reselector.strategy.id u.address.str))) := by
  unfold reselect
  rw [if_neg (by rw [hre]; simp)]
  dsimp only
  split
  · exact ⟨⟨rfl, rfl, rfl, rfl, rfl, rfl⟩, rfl, .inl ⟨rfl, rfl⟩⟩
  · rename_i reselector hsome
    split
    · exact ⟨⟨rfl, rfl, rfl, rfl, rfl, rfl⟩, rfl, .inl ⟨rfl, rfl⟩⟩
    · rename_i address outside _
      let asked : Flight τ := { s with reselectOnRetry := false }
      let entered : Flight τ :=
        asked.setWorld { asked.world.enter (.taken (.slot reselector.strategy.id address.str)) with outside }
      have hentered : Alongside s entered := Alongside.trans (t := asked) ⟨rfl, rfl, rfl, rfl, rfl, rfl⟩ (alongside_setWorld _)
      let released : Flight τ := s.upstreamForRetry.elim entered fun previous =>
        entered.setWorld (entered.world.release reselector.strategy previous.address.str)
      have hreleased : Alongside s released ∧ released.reselectOnRetry = false ∧ released.accounts =
          s.accounts.record (.taken (.slot reselector.strategy.id address.str) ::
            s.upstreamForRetry.toList.map fun u => .given (.slot reselector.strategy.id u.address.str)) := by
        cases hfor : s.upstreamForRetry with
        | none =>
          have heq : released = entered := by simp only [released, hfor, Option.elim]
          rw [heq]
          exact ⟨hentered, rfl, rfl⟩
        | some previous =>
          have heq : released = entered.setWorld (entered.world.release reselector.strategy previous.address.str) := by
            simp only [released, hfor, Option.elim]
          rw [heq]
          refine ⟨hentered.trans (alongside_setWorld _), rfl, ?_⟩
          simp [record, World.release, World.enter, entered, asked, accounts, world, setWorld]
      obtain ⟨halong, hre', haccounts⟩ := hreleased
      obtain ⟨halong', haccounts', -, hre''⟩ := noteAttempted_spec released address
      let noted : Flight τ := (released.noteAttempted address).setWorld
        { (released.noteAttempted address).world with selectedEndpointIndex := some ((index address).getD unknownIndex) }
      have hnoted : Alongside s noted := (halong.trans halong').trans (alongside_setWorld _)
      have hkept : noted.reselectOnRetry = false ∧ noted.accounts = released.accounts := ⟨hre''.trans hre', haccounts'⟩
      exact ⟨hnoted.use _, hkept.1, .inr ⟨reselector, address, hsome, rfl, hkept.2.trans haccounts⟩⟩

/-! ## Requests under way -/

/-- The slot of the endpoint in use. -/
def slots (entry : ClusterEntry τ) (upstream : Option Upstream) : List Load :=
  upstream.toList.map fun u => .slot entry.strategy.id u.address.str

/-- The request selected an endpoint and its accounts are open: it owes the slot of the endpoint in use and
the lease, and the filter that selected will be asked to give them back. -/
structure Open (filters : List (PipelineFilter (World τ))) (s : Flight τ) (entry : ClusterEntry τ) : Prop where
  paired : Paired filters s.ctx
  undone : s.responsePhaseDone = false
  selected : s.accounts.lbSelected = true
  selectedBy : ∃ p lb, SelectedBy filters s.ctx p lb entry
  state : s.accounts.clusterRetryState = some entry.retryState
  unreleased : s.accounts.clusterRetryStateReleased = false
  reselector : ∃ hashKey, s.accounts.endpointReselector = some { strategy := entry.strategy, hashKey }
  owes : Owes s.accounts.ledger (slots entry s.upstream ++ [.lease entry.retryState])
  /-- A copy of the endpoint in use is a copy of the endpoint in use. -/
  agree : ∀ u v, s.ctx.exchange.upstream = some u → s.upstreamForRetry = some v → u = v
  vacated : s.reselectOnRetry = true → s.upstream = none

/-- Under a configured policy, which gives the endpoint back before a retry, no other copy of it is kept. -/
def Reselectable (s : Flight τ) (out : RetryOutcome) : Prop :=
  s.policy.configured = true → isRetriable s.policy out = true → s.ctx.exchange.upstream = none

/-- Where the source does not lose track: the request phase ends with room for the mark in the metadata, at most
one load balancer ran when the response hooks are called, the response phase runs once, for the final response,
no terminal response follows a selection, and a retry that selects anew finds no copy of the endpoint it gives
back. -/
def Tracked (filters : List (PipelineFilter (World τ))) (s : Flight τ) : Event → Prop
  | .request fuel _ => ∀ r ∈ executeHttpRequest filters fuel (s.filterContext none),
    r.1.exchange.world.otherMetadata < maxMetadataEntries
  | .fail out _ _ _ => s.Reselectable out
  | .respond resp final _ _ _ =>
    final = true ∧ (ranBalancers filters s.ctx.log).length ≤ 1 ∧ s.Reselectable (.statusCode resp.status)
  | .finish => (ranBalancers filters s.ctx.log).length ≤ 1 ∧
    (s.phase = .stopped → s.responsePhaseDone = true → s.accounts.lbSelected = false)
  | _ => True

/-- A step the source keeps track at, of a request whose selection was left to stand. -/
def Orderly (filters : List (PipelineFilter (World τ))) (s : Flight τ) (event : Event) : Prop :=
  Unreplaced filters s.ctx.log ∧ s.Tracked filters event

instance (s : Flight τ) (out : RetryOutcome) : Decidable (s.Reselectable out) :=
  inferInstanceAs (Decidable (s.policy.configured = true → isRetriable s.policy out = true → s.ctx.exchange.upstream = none))

instance (filters : List (PipelineFilter (World τ))) (s : Flight τ) : ∀ event, Decidable (s.Tracked filters event)
  | .request fuel _ => inferInstanceAs (Decidable (∀ r ∈ executeHttpRequest filters fuel (s.filterContext none),
    r.1.exchange.world.otherMetadata < maxMetadataEntries))
  | .fail out _ _ _ => inferInstanceAs (Decidable (s.Reselectable out))
  | .respond resp final _ _ _ => inferInstanceAs (Decidable
    (final = true ∧ (ranBalancers filters s.ctx.log).length ≤ 1 ∧ s.Reselectable (.statusCode resp.status)))
  | .finish => inferInstanceAs (Decidable ((ranBalancers filters s.ctx.log).length ≤ 1 ∧
    (s.phase = .stopped → s.responsePhaseDone = true → s.accounts.lbSelected = false)))
  | .attempt _ | .body | .replay => .isTrue trivial

/-- After the request phase, with neither the response phase nor the cleanup behind. -/
def pending (s : Flight τ) : Bool := s.phase == .attempting || s.phase == .dialed || s.phase == .stopped

/-- The accounts of a request between two steps. -/
inductive InOrder (filters : List (PipelineFilter (World τ))) (s : Flight τ) : Prop where
  | received (request : Request) (boundCluster : Option String) (otherMetadata : Nat) (outside : τ)
      (h : s = start request boundCluster otherMetadata outside)
  | unselected (hpending : s.pending = true) (hdone : s.responsePhaseDone = false) (hpaired : Paired filters s.ctx)
      (hblank : s.accounts = .blank τ)
  | opened (hpending : s.pending = true) (entry : ClusterEntry τ) (h : s.Open filters entry)
  | terminal (hph : s.phase = .stopped) (hdone : s.responsePhaseDone = true) (hselected : s.accounts.lbSelected = true)
  | settled (hph : s.phase = .answered ∨ s.phase = .stopped) (hdone : s.responsePhaseDone = true)
      (hreleased : s.accounts.clusterRetryState = none ∨ s.accounts.clusterRetryStateReleased = true)
      (howes : Owes s.accounts.ledger [])
  | complete (hph : s.phase = .complete) (hbalanced : Balanced s.accounts.ledger)

section

variable {filters : List (PipelineFilter (World τ))} {s t : Flight τ} {entry : ClusterEntry τ}

theorem Alongside.paired (h : Alongside s t) (hpaired : Paired filters s.ctx) : Paired filters t.ctx :=
  hpaired.congr (fun _ => by rw [h.log]) (by rw [h.books]) (by rw [h.books])

/-- A step that keeps the marks and the cluster, and the accounts but for the ledger. -/
theorem Open.congr (h : s.Open filters entry) (hpaired : Paired filters t.ctx) (hdone : t.responsePhaseDone = false)
    (hcluster : t.ctx.exchange.cluster = s.ctx.exchange.cluster) (hlog : t.ctx.log = s.ctx.log)
    (es : List (Entry Load)) (haccounts : t.accounts = s.accounts.record es)
    (howes : Owes t.accounts.ledger (slots entry t.upstream ++ [.lease entry.retryState]))
    (hagree : ∀ u v, t.ctx.exchange.upstream = some u → t.upstreamForRetry = some v → u = v)
    (hvacated : t.reselectOnRetry = true → t.upstream = none) : t.Open filters entry := by
  obtain ⟨p, lb, hby⟩ := h.selectedBy
  refine ⟨hpaired, hdone, ?_, ⟨p, lb, hby.congr hcluster (hlog ▸ prefix_refl _)⟩, ?_, ?_, ?_, howes, hagree, hvacated⟩
  · rw [haccounts]
    exact h.selected
  · rw [haccounts]
    exact h.state
  · rw [haccounts]
    exact h.unreleased
  · rw [haccounts]
    exact h.reselector

theorem Open.setPhase (h : s.Open filters entry) (phase : Phase) : { s with phase }.Open filters entry :=
  ⟨h.paired, h.undone, h.selected, h.selectedBy, h.state, h.unreleased, h.reselector, h.owes, h.agree, h.vacated⟩

/-! ### Retries -/

theorem Open.returnedSlots (h : s.Open filters entry) (hnone : s.ctx.exchange.upstream = none) :
    s.returnedSlots = (slots entry s.upstream).map .given := by
  obtain ⟨hashKey, hre⟩ := h.reselector
  have hup : s.upstream = s.upstreamForRetry := by
    rw [upstream, hnone]
    rfl
  rw [Flight.returnedSlots, hre, hup, slots]
  cases s.upstreamForRetry <;> rfl

variable {out : RetryOutcome} {seen : RetryCtx} {admits again refused : Bool} {jitter : Nat}
  {left : HttpFilterContext (World τ)}

theorem Open.retryAfter (h : s.Open filters entry) (hfree : s.Reselectable out)
    (hretry : s.retryAfter out seen admits jitter = (again, t)) : t.Open filters entry := by
  rcases retryAfter_spec s out seen admits jitter with hsame | ⟨u, hu, hretriable, halong, hreselect, hcases⟩
  · obtain rfl : s = t := congrArg Prod.snd (hsame.symm.trans hretry)
    exact h
  · obtain rfl : u = t := congrArg Prod.snd (hu.symm.trans hretry)
    have hdone := halong.done.trans h.undone
    rcases hcases with ⟨hconf, hfor, haccounts⟩ | ⟨hconf, hnone, haccounts⟩
    · have hup : u.upstream = s.upstream := by rw [upstream, upstream, halong.upstream, hfor]
      refine h.congr (halong.paired h.paired) hdone halong.cluster halong.log [] (by simpa using haccounts)
        ?_ ?_ ?_
      · rw [haccounts, hup]
        exact h.owes
      · rw [halong.upstream, hfor]
        exact h.agree
      · rw [hreselect, hconf]
        exact nofun
    · have hup : u.upstream = none := by rw [upstream, halong.upstream, hfree hconf hretriable, hnone]; rfl
      refine h.congr (halong.paired h.paired) hdone halong.cluster halong.log _ haccounts ?_ ?_ fun _ => hup
      · rw [haccounts, hup, h.returnedSlots (hfree hconf hretriable)]
        exact h.owes.giveAll
      · rw [hnone]
        exact nofun

/-- A reselection finds nothing in use, so that what it selects is all the request uses. -/
theorem Open.reselect (h : s.Open filters entry) (index : ArcStr → Option Nat) : (s.reselect index).Open filters entry := by
  cases hre : s.reselectOnRetry with
  | false => rw [reselect_unasked hre]; exact h
  | true =>
    have hnone : s.upstream = none := h.vacated hre
    obtain ⟨hup, hfor⟩ : s.ctx.exchange.upstream = none ∧ s.upstreamForRetry = none := or_eq_none_iff.1 hnone
    obtain ⟨hashKey, hselector⟩ := h.reselector
    have howes : Owes s.accounts.ledger [.lease entry.retryState] := by
      have howes := h.owes
      rwa [hnone] at howes
    obtain ⟨halong, hre', hcases⟩ := reselect_spec index hre
    have hpaired := halong.paired h.paired
    have hdone := halong.done.trans h.undone
    have hup' := halong.upstream.trans hup
    have hagree : ∀ u v, (s.reselect index).ctx.exchange.upstream = some u → (s.reselect index).upstreamForRetry = some v → u = v := by
      rw [hup']
      exact nofun
    have hvacated : (s.reselect index).reselectOnRetry = true → (s.reselect index).upstream = none := by
      rw [hre']
      exact nofun
    rcases hcases with ⟨hfor', haccounts⟩ | ⟨reselector, address, hsome, hfor', haccounts⟩
    · refine h.congr hpaired hdone halong.cluster halong.log [] (by simpa using haccounts) ?_ hagree hvacated
      rw [haccounts, upstream, hup', hfor', hfor]
      exact howes
    · obtain rfl : { strategy := entry.strategy, hashKey } = reselector := some.inj (hselector.symm.trans hsome)
      refine h.congr hpaired hdone halong.cluster halong.log _ haccounts ?_ hagree hvacated
      rw [haccounts, upstream, hup', hfor', hfor]
      exact howes.take

theorem Open.prepareAttempt (h : s.Open filters entry) (index : ArcStr → Option Nat) :
    (s.prepareAttempt index).Open filters entry := by
  have h := h.reselect index
  unfold Flight.prepareAttempt
  dsimp only
  generalize s.reselect index = u at h
  split
  · rename_i hfor
    have hfor : u.upstreamForRetry = none := by simpa using hfor
    have hup : u.upstream = u.ctx.exchange.upstream := by rw [upstream, hfor, or_none]
    refine Open.setPhase (s := { u with
        upstreamForRetry := u.ctx.exchange.upstream
        ctx := { u.ctx with exchange := { u.ctx.exchange with upstream := none } } }) ?_ _
    refine h.congr (h.paired.congr (fun _ => rfl) rfl rfl) h.undone rfl rfl [] (record_nil _).symm ?_ nofun ?_
    · show Owes u.accounts.ledger (slots entry u.ctx.exchange.upstream ++ _)
      rw [← hup]
      exact h.owes
    · show u.reselectOnRetry = true → u.ctx.exchange.upstream = none
      rw [← hup]
      exact h.vacated
  · exact h.setPhase _

theorem Open.runBodyPhase (h : s.Open filters entry) : s.runBodyPhase.Open filters entry := by
  have hup : s.runBodyPhase.upstream = s.upstream := by
    show (s.ctx.exchange.upstream.or s.upstreamForRetry).or s.upstreamForRetry = _
    rw [Option.or_assoc, Option.or_self]
    rfl
  refine h.congr (h.paired.congr (fun _ => rfl) rfl rfl) h.undone rfl rfl [] (record_nil _).symm ?_ ?_ ?_
  · rw [hup]
    exact h.owes
  · intro u v hu hv
    have hu : s.ctx.exchange.upstream.or s.upstreamForRetry = some u := hu
    have hv : s.upstreamForRetry = some v := hv
    cases hown : s.ctx.exchange.upstream with
    | none =>
      rw [hown, Option.none_or] at hu
      exact Option.some.inj (hu.symm.trans hv)
    | some w =>
      rw [hown, Option.some_or] at hu
      exact Option.some.inj hu ▸ h.agree w v hown hv
  · rw [hup]
    exact h.vacated

/-! ### The response phase and the cleanup -/

theorem response_selected (hequipped : Equipped filters) (hpaired : Paired filters s.ctx) (resp : Option Response) :
    (executeHttpResponse filters (s.filterContext resp)).1.exchange.world.accounts.lbSelected = s.accounts.lbSelected ∧
      (s.accounts.lbSelected = false →
        (executeHttpResponse filters (s.filterContext resp)).1.exchange.world.accounts = s.accounts) := by
  have hpaired' : Paired filters (s.filterContext resp) := hpaired.congr (fun _ => rfl) rfl rfl
  rw [hpaired'.executeHttpResponse_fst]
  exact runHooks_selected hequipped (fun pf hpf => mem_of_mem_filter (mem_reverse.1 hpf)) rfl

theorem response_settled (hequipped : Equipped filters) (hsteady : Steady filters) (hpaired : Paired filters s.ctx)
    (hone : (ranBalancers filters s.ctx.log).length ≤ 1) {p : PipelineFilter (World τ)} {lb : LoadBalancerFilter τ}
    (hby : SelectedBy filters s.ctx p lb entry) (hselected : s.accounts.lbSelected = true) (resp : Option Response) :
    (executeHttpResponse filters (s.filterContext resp)).1.exchange.world.accounts =
      s.accounts.settled entry s.upstream := by
  have hpaired' : Paired filters (s.filterContext resp) := hpaired.congr (fun _ => rfl) rfl rfl
  have hby' : SelectedBy filters (s.filterContext resp) p lb entry := hby.congr rfl (prefix_refl _)
  exact executeHttpResponse_settled hequipped hsteady hpaired' hone hby' hselected

theorem settled_ledger (a : Accounts τ) (upstream : Option Upstream) :
    (a.settled entry upstream).ledger =
      a.ledger ++ (slots entry upstream ++ a.clusterRetryState.toList.map Load.lease).map .given := by
  simp [settled, slots, Function.comp_def]

section

variable (hequipped : Equipped filters) (hsteady : Steady filters) (h : s.Open filters entry)
  (hone : (ranBalancers filters s.ctx.log).length ≤ 1)
include hequipped hsteady h hone

/-- The response phase of the final response settles the accounts. -/
theorem Open.runResponseFilters (resp : Response) :
    (s.runResponseFilters filters resp).accounts.clusterRetryStateReleased = true ∧
      Owes (s.runResponseFilters filters resp).accounts.ledger [] := by
  obtain ⟨p, lb, hby⟩ := h.selectedBy
  have hsettled := response_settled hequipped hsteady h.paired hone hby h.selected (some resp)
  constructor
  · show (executeHttpResponse filters (s.filterContext (some resp))).1.exchange.world.accounts.clusterRetryStateReleased = true
    rw [hsettled, settled, h.state]
    simp
  · show Owes (executeHttpResponse filters (s.filterContext (some resp))).1.exchange.world.accounts.ledger []
    rw [hsettled, settled_ledger, h.state]
    refine Owes.giveAll ?_
    rw [append_nil]
    exact h.owes

/-- A request that ends before a response gives back what it owes. -/
theorem Open.logging : Balanced (s.logging filters).accounts.ledger := by
  obtain ⟨p, lb, hby⟩ := h.selectedBy
  -- The lease goes first, and the response hooks do not find it any more.
  let left : Flight τ := s.setWorld { s.world with accounts :=
    { s.accounts with
      clusterRetryState := none
      clusterRetryStateReleased := true
      ledger := s.accounts.ledger ++ [.given (.lease entry.retryState)] } }
  have hleft : s.releaseRetryState = left := by
    unfold releaseRetryState
    rw [h.unreleased, h.state]
    rfl
  have hcleanup : (left.loggingCleanup filters).accounts.ledger =
      (executeHttpResponse filters (left.filterContext none)).1.exchange.world.accounts.ledger := by
    unfold loggingCleanup
    rw [if_neg (by rw [show left.responsePhaseDone = false from h.undone]; simp)]
    rfl
  have hsettled := response_settled (s := left) hequipped hsteady (h.paired.congr (fun _ => rfl) rfl rfl) hone
    (hby.congr rfl (prefix_refl _)) h.selected none
  show Balanced (s.releaseRetryState.loggingCleanup filters).accounts.ledger
  rw [hleft, hcleanup, hsettled, settled_ledger]
  have howes : Owes left.accounts.ledger (slots entry s.upstream) :=
    Owes.give (h.owes.perm (perm_append_singleton _ _))
  refine Owes.balanced (Owes.giveAll ?_)
  rw [append_nil]
  exact howes.perm (by rw [show left.accounts.clusterRetryState.toList.map Load.lease = [] from rfl, append_nil]; rfl)

end

/-! ### Steps -/

/-- Between two attempts a request is unselected or open. -/
theorem InOrder.underWay (h : InOrder filters s) (hph : s.phase = .attempting ∨ s.phase = .dialed) :
    s.responsePhaseDone = false ∧ Paired filters s.ctx ∧ s.accounts = .blank τ ∨ ∃ entry, s.Open filters entry := by
  cases h with
  | unselected _ hdone hpaired hblank => exact .inl ⟨hdone, hpaired, hblank⟩
  | opened _ entry h => exact .inr ⟨entry, h⟩
  | received _ _ _ _ h => subst h; rcases hph with h | h <;> cases h
  | terminal h | complete h => rw [h] at hph; rcases hph with h | h <;> cases h
  | settled h => rcases h with h | h <;> (rw [h] at hph; rcases hph with h | h <;> cases h)

/-- What the request phase leaves is unselected or open, whether or not the policy is written back. -/
theorem InOrder.ofAccounted (haccounted : Accounted filters left) (hpaired : Paired filters left)
    (hpending : t.pending = true) (hfor : t.upstreamForRetry = none) (hdone : t.responsePhaseDone = false)
    (hre : t.reselectOnRetry = false) (hcluster : t.ctx.exchange.cluster = left.exchange.cluster)
    (hup : t.ctx.exchange.upstream = left.exchange.upstream) (hlog : t.ctx.log = left.log) (hbooks : t.ctx.books = left.books)
    (haccounts : t.accounts = { left.exchange.world.accounts with retryPolicy := t.accounts.retryPolicy })
    (hpolicy : left.exchange.world.accounts.retryPolicy = none → t.accounts.retryPolicy = none) : InOrder filters t := by
  have hpaired' : Paired filters t.ctx := hpaired.congr (fun _ => by rw [hlog]) (by rw [hbooks]) (by rw [hbooks])
  rcases haccounted with hblank | ⟨p, lb, entry, policy, hashKey, address, hby, hupstream, hopened⟩
  · refine .unselected hpending hdone hpaired' ?_
    have hnone := hpolicy (by rw [hblank]; rfl)
    rw [haccounts, hnone, hblank]
    rfl
  · have hwhole : t.upstream = some { address } := by rw [upstream, hup, hupstream]; rfl
    rw [hopened] at haccounts
    refine .opened hpending entry ⟨hpaired', hdone, by rw [haccounts]; rfl,
      ⟨p, lb, hby.congr hcluster (hlog ▸ prefix_refl _)⟩, by rw [haccounts]; rfl, by rw [haccounts]; rfl,
      ⟨hashKey, by rw [haccounts]; rfl⟩, ?_, ?_, ?_⟩
    · rw [haccounts, hwhole]
      exact Perm.refl _
    · rw [hfor]
      exact fun _ _ _ => nofun
    · rw [hre]
      exact nofun

/-- The request phase is followed by an attempt, by none, or by a terminal response. -/
theorem afterRequest_cases (s : Flight τ) (filters : List (PipelineFilter (World τ))) (refused : Bool)
    (left : HttpFilterContext (World τ)) (result : Except Abort FilterAction) :
    s.afterRequest filters refused (left, result) = s.writeBackStopped left ∨
    s.afterRequest filters refused (left, result) = { s with ctx := left, phase := .attempting } ∨
    ∃ resp, s.afterRequest filters refused (left, result) =
      (s.writeBackStopped left).prepareTerminalResponse filters resp := by
  cases result with
  | error e => exact .inl rfl
  | ok action =>
    cases action with
    | proceed | release | bodyDone => exact (ite_eq_or_eq _ _ _).imp id .inl
    | reject r => exact .inl rfl
    | terminalResponse | streamingTerminalResponse => exact .inr (.inr ⟨_, rfl⟩)

theorem afterRequest_log (hpaired : Paired filters left) {result : Except Abort FilterAction} :
    left.log <+: (s.afterRequest filters refused (left, result)).ctx.log := by
  rcases afterRequest_cases s filters refused left result with heq | heq | ⟨resp, heq⟩
  · exact heq ▸ prefix_refl _
  · exact heq ▸ prefix_refl _
  · rw [heq]
    have hpaired' : Paired filters ((s.writeBackStopped left).filterContext (some resp)) := hpaired.congr (fun _ => rfl) rfl rfl
    show left.log <+: (executeHttpResponse filters ((s.writeBackStopped left).filterContext (some resp))).1.log
    rw [hpaired'.executeHttpResponse_fst]
    exact runHooks_log _ (responseStart filters ((s.writeBackStopped left).filterContext (some resp)))

theorem InOrder.request (hres : Resolved filters) (hequipped : Equipped filters)
    {request : Request} {boundCluster : Option String} {otherMetadata : Nat} {outside : τ} {fuel : Nat} {refused : Bool}
    (htracked : (start request boundCluster otherMetadata outside).Tracked filters (.request fuel refused))
    (hrun : (start request boundCluster otherMetadata outside).runPipeline filters fuel refused = some t)
    (hunreplaced : Unreplaced filters t.ctx.log) : InOrder filters t := by
  obtain ⟨⟨left, result⟩, hexecute, rfl⟩ := map_eq_some_iff.1 hrun
  have hpaired := Paired.executeHttpRequest hres rfl hexecute
  have haccounted : Accounted filters left :=
    Accounted.executeHttpRequest hequipped rfl hexecute (hunreplaced.mono (afterRequest_log hpaired)) (htracked _ hexecute)
  have hstopped : InOrder filters ((start request boundCluster otherMetadata outside).writeBackStopped left) :=
    .ofAccounted haccounted hpaired rfl rfl rfl rfl rfl rfl rfl rfl rfl fun _ => rfl
  rcases afterRequest_cases (start request boundCluster otherMetadata outside) filters refused left result with
    heq | heq | ⟨resp, heq⟩
  · rw [heq]
    exact hstopped
  · rw [heq]
    exact .ofAccounted haccounted hpaired rfl rfl rfl rfl rfl rfl rfl rfl rfl id
  -- A terminal response runs the response phase at once.
  · rw [heq]
    cases hstopped with
    | received _ _ _ _ h => exact absurd (congrArg Flight.phase h) nofun
    | unselected _ _ hpaired hblank =>
      have hsame := (response_selected hequipped hpaired (some resp)).2 (by rw [hblank]; rfl)
      refine .settled (.inr rfl) rfl (.inl (congrArg clusterRetryState hblank)) ?_
      have hnil := congrArg ledger (hsame.trans hblank)
      exact hnil ▸ owes_nil
    | opened _ entry h => exact .terminal rfl rfl ((response_selected hequipped h.paired (some resp)).1.trans h.selected)
    | terminal _ hdone | settled _ hdone => exact absurd hdone nofun
    | complete hph => exact absurd hph nofun

theorem prepareAttempt_blank (hblank : s.accounts = .blank τ) (index : ArcStr → Option Nat) :
    (s.prepareAttempt index).ctx.log = s.ctx.log ∧ (s.prepareAttempt index).ctx.books = s.ctx.books ∧
      (s.prepareAttempt index).responsePhaseDone = s.responsePhaseDone ∧ (s.prepareAttempt index).accounts = .blank τ := by
  have hreselect : Alongside s (s.reselect index) ∧ (s.reselect index).accounts = .blank τ := by
    cases hre : s.reselectOnRetry with
    | false => rw [reselect_unasked hre]; exact ⟨⟨rfl, rfl, rfl, rfl, rfl, rfl⟩, hblank⟩
    | true =>
      obtain ⟨halong, -, ⟨-, haccounts⟩ | ⟨_, _, hsome, -⟩⟩ := reselect_spec index hre
      · exact ⟨halong, haccounts.trans hblank⟩
      · rw [hblank] at hsome
        cases hsome
  obtain ⟨halong, haccounts⟩ := hreselect
  unfold prepareAttempt
  dsimp only
  split <;> exact ⟨halong.log, halong.books, halong.done, haccounts⟩

theorem retryAfter_blank (hblank : s.accounts = .blank τ) (hretry : s.retryAfter out seen admits jitter = (again, t)) :
    t.ctx.log = s.ctx.log ∧ t.ctx.books = s.ctx.books ∧ t.responsePhaseDone = s.responsePhaseDone ∧ t.accounts = .blank τ := by
  rcases retryAfter_spec s out seen admits jitter with hsame | ⟨u, hu, -, halong, -, hcases⟩
  · cases hsame.symm.trans hretry
    exact ⟨rfl, rfl, rfl, hblank⟩
  · cases hu.symm.trans hretry
    refine ⟨halong.log, halong.books, halong.done, ?_⟩
    rcases hcases with ⟨-, -, haccounts⟩ | ⟨-, -, haccounts⟩
    · exact haccounts.trans hblank
    · have hslots : s.returnedSlots = [] := by
        rw [returnedSlots, hblank]
        cases s.upstreamForRetry <;> rfl
      rw [haccounts, hslots, record_nil, hblank]

theorem InOrder.attempt (h : InOrder filters s) (hph : s.phase = .attempting) (index : ArcStr → Option Nat) :
    InOrder filters (s.prepareAttempt index) := by
  have hphases : ∀ b : Bool, ((if b then Phase.dialed else .stopped) == .attempting ||
    (if b then Phase.dialed else .stopped) == .dialed || (if b then Phase.dialed else .stopped) == .stopped) = true := by decide
  have hpending : (s.prepareAttempt index).pending = true := hphases _
  rcases h.underWay (.inl hph) with ⟨hdone, hpaired, hblank⟩ | ⟨entry, h⟩
  · obtain ⟨hlog, hbooks, hdone', haccounts⟩ := prepareAttempt_blank hblank index
    exact .unselected hpending (hdone'.trans hdone)
      (hpaired.congr (fun _ => by rw [hlog]) (by rw [hbooks]) (by rw [hbooks])) haccounts
  · exact .opened hpending entry (h.prepareAttempt index)

theorem InOrder.body (h : InOrder filters s) (hph : s.phase = .dialed ∨ s.phase = .answered) :
    InOrder filters s.runBodyPhase := by
  cases h with
  | received _ _ _ _ h => rw [h] at hph; rcases hph with h | h <;> cases h
  | unselected hpending hdone hpaired hblank =>
    exact .unselected hpending hdone (hpaired.congr (fun _ => rfl) rfl rfl) hblank
  | opened hpending entry h => exact .opened hpending entry h.runBodyPhase
  | terminal hph' => rw [hph'] at hph; rcases hph with h | h <;> cases h
  | settled hph hdone hreleased howes => exact .settled hph hdone hreleased howes
  | complete hph' => rw [hph'] at hph; rcases hph with h | h <;> cases h

/-- Whether an attempt is retried or not, the accounts stay as they were or give the endpoint back. -/
theorem InOrder.retryAfter (h : InOrder filters s) (hph : s.phase = .dialed) {out : RetryOutcome}
    (hfree : s.Reselectable out) {seen : RetryCtx} {admits : Bool} {jitter : Nat} {again : Bool}
    (hretry : s.retryAfter out seen admits jitter = (again, t)) {phase : Phase}
    (hpending : { t with phase }.pending = true) : InOrder filters { t with phase } := by
  rcases h.underWay (.inr hph) with ⟨hdone, hpaired, hblank⟩ | ⟨entry, h⟩
  · obtain ⟨hlog, hbooks, hdone', haccounts⟩ := retryAfter_blank hblank hretry
    exact .unselected hpending (hdone'.trans hdone)
      (hpaired.congr (fun _ => by rw [hlog]) (by rw [hbooks]) (by rw [hbooks])) haccounts
  · exact .opened hpending entry ((h.retryAfter hfree hretry).setPhase phase)

section

variable (hequipped : Equipped filters) (hsteady : Steady filters) (h : InOrder filters s)
  (hph : s.phase = .dialed) (hone : (ranBalancers filters s.ctx.log).length ≤ 1)
include hequipped hsteady h hph hone

theorem InOrder.answer (resp : Response) :
    InOrder filters
      { { s with responsePhaseDone := true }.runResponseFilters filters resp with phase := .answered } := by
  rcases h.underWay (.inr hph) with ⟨-, hpaired, hblank⟩ | ⟨entry, h⟩
  · have hsame := (response_selected hequipped hpaired (some resp)).2 (by rw [hblank]; rfl)
    refine .settled (.inl rfl) rfl (.inl (congrArg clusterRetryState hblank)) ?_
    show Owes (executeHttpResponse filters (s.filterContext (some resp))).1.exchange.world.accounts.ledger []
    rw [hsame, hblank]
    exact owes_nil
  · obtain ⟨hreleased, howes⟩ := h.runResponseFilters hequipped hsteady hone resp
    exact .settled (.inl rfl) rfl (.inr hreleased) howes

theorem InOrder.respond {resp : Response} (hfree : s.Reselectable (.statusCode resp.status)) (seen : RetryCtx)
    (admits : Bool) (jitter : Nat) : InOrder filters (s.respond filters resp true seen admits jitter) := by
  unfold Flight.respond
  split
  · rename_i t hretry
    exact h.retryAfter hph hfree hretry rfl
  · rename_i t hretry
    rcases retryAfter_spec s (.statusCode resp.status) seen admits jitter with hsame | ⟨u, hu, -⟩
    · cases hsame.symm.trans hretry
      exact h.answer hequipped hsteady hph hone resp
    · cases congrArg Prod.fst (hu.symm.trans hretry)

end

theorem InOrder.replay (h : InOrder filters s) (hph : s.phase = .dialed) : InOrder filters { s with phase := .attempting } := by
  rcases h.underWay (.inr hph) with ⟨hdone, hpaired, hblank⟩ | ⟨entry, h⟩
  · exact .unselected rfl hdone hpaired hblank
  · exact .opened rfl entry (h.setPhase _)

theorem runPipeline_phase {fuel : Nat} (h : s.runPipeline filters fuel refused = some t) : t.phase ≠ .complete := by
  obtain ⟨⟨left, result⟩, -, rfl⟩ := map_eq_some_iff.1 h
  rcases afterRequest_cases s filters refused left result with heq | heq | ⟨resp, heq⟩
  all_goals
    rw [heq]
    exact nofun

/-- The cleanup finds no lease that is still held. -/
theorem releaseRetryState_released
    (h : s.accounts.clusterRetryState = none ∨ s.accounts.clusterRetryStateReleased = true) : s.releaseRetryState = s := by
  unfold releaseRetryState
  split
  · rename_i hreleased hstate
    rcases h with h | h
    · cases h.symm.trans hstate
    · cases h.symm.trans hreleased
  · rfl

theorem InOrder.finish (hequipped : Equipped filters) (hsteady : Steady filters) (h : InOrder filters s)
    (hreceived : s.phase ≠ .received) (htracked : s.Tracked filters .finish) (hph : s.phase ≠ .complete) :
    InOrder filters (s.logging filters) := by
  refine .complete rfl ?_
  cases h with
  | received _ _ _ _ h => exact absurd (congrArg Flight.phase h) hreceived
  | unselected _ hdone hpaired hblank =>
    have hsame : s.releaseRetryState = s := releaseRetryState_released (.inl (congrArg clusterRetryState hblank))
    have hunselected := (response_selected hequipped hpaired none).2 (by rw [hblank]; rfl)
    show Balanced (s.releaseRetryState.loggingCleanup filters).accounts.ledger
    rw [hsame, loggingCleanup, if_neg (by rw [hdone]; simp)]
    show Balanced (executeHttpResponse filters (s.filterContext none)).1.exchange.world.accounts.ledger
    rw [hunselected, hblank]
    exact owes_nil.balanced
  | opened _ entry h => exact h.logging hequipped hsteady htracked.1
  | terminal hstopped hdone hselected => cases hselected.symm.trans (htracked.2 hstopped hdone)
  | settled _ hdone hreleased howes =>
    show Balanced (s.releaseRetryState.loggingCleanup filters).accounts.ledger
    rw [releaseRetryState_released hreleased, loggingCleanup, if_pos hdone]
    exact howes.balanced
  | complete h => exact absurd h hph

theorem InOrder.step (hres : Resolved filters) (hequipped : Equipped filters) (hsteady : Steady filters) {event : Event}
    (h : InOrder filters s) (htracked : s.Tracked filters event) (hstep : s.step filters event = some t)
    (hunreplaced : t.phase ≠ .complete → Unreplaced filters t.ctx.log) : InOrder filters t := by
  unfold Flight.step at hstep
  split at hstep
  case h_1 hph =>
    cases h with
    | received request boundCluster otherMetadata outside h =>
      subst h
      exact .request hres hequipped htracked hstep (hunreplaced (runPipeline_phase hstep))
    | unselected h | opened h => rw [pending, hph] at h; cases h
    | terminal h => cases hph.symm.trans h
    | settled h => rw [hph] at h; rcases h with h | h <;> cases h
    | complete h => cases hph.symm.trans h
  case h_2 index hph =>
    cases hstep
    exact h.attempt hph index
  case h_3 hph =>
    cases hstep
    exact h.body (.inl hph)
  case h_4 hph =>
    cases hstep
    exact h.body (.inr hph)
  case h_5 out seen admits jitter hph =>
    split at hstep
    all_goals
      rename_i hretry
      cases hstep
      exact h.retryAfter hph htracked hretry rfl
  case h_6 hph =>
    cases hstep
    exact h.replay hph
  case h_7 resp final seen admits jitter hph =>
    obtain ⟨rfl, hone, hfree⟩ := htracked
    cases hstep
    exact h.respond hequipped hsteady hph hone hfree seen admits jitter
  case h_12 => cases hstep
  all_goals
    rename_i hph
    cases hstep
    exact h.finish hequipped hsteady (by rw [hph]; exact nofun) htracked (by rw [hph]; exact nofun)

end

/-- In every orderly run of a steady pipeline, once the request is over, the strategy that selected was
released once for each endpoint it selected, no other strategy was, and the retry state that was entered was
left once. -/
theorem accounts_balanced {κ : Type} {reg : FilterRegistry (World τ) κ} {chains : String → Option (List (FilterEntry κ))}
    {es : List (FilterEntry κ)} {filters : List (PipelineFilter (World τ))}
    (hbuild : buildWithChains reg chains es = .ok filters) (hequipped : Equipped filters) (hsteady : Steady filters)
    {request : Request} {boundCluster : Option String} {otherMetadata : Nat} {outside : τ} {events : List Event}
    {t : Flight τ} (horderly : Along (step filters) (Orderly filters) (start request boundCluster otherMetadata outside) events)
    (hrun : run (step filters) (start request boundCluster otherMetadata outside) events = some t) (hph : t.phase = .complete) :
    Balanced t.accounts.ledger := by
  have hres := buildWithChains_resolved hbuild
  -- The condition on the log is known of the state before a step, and not needed of a request that is over.
  have hinorder : InOrder filters t := run_invariant
    (I := fun s : Flight τ => (s.phase ≠ .complete → Unreplaced filters s.ctx.log) → InOrder filters s)
    (fun _ _ _ h horderly hstep => (h fun _ => horderly.1).step hres hequipped hsteady horderly.2 hstep)
    (fun _ => .received request boundCluster otherMetadata outside rfl) horderly hrun fun h => absurd hph h
  cases hinorder with
  | received _ _ _ _ h => rw [h] at hph; cases hph
  | unselected _ hdone hpaired hblank => rw [hblank]; exact owes_nil.balanced
  | opened h => rw [pending, hph] at h; cases h
  | terminal h => cases hph.symm.trans h
  | settled h => rw [hph] at h; rcases h with h | h <;> cases h
  | complete _ h => exact h

/-! ### Two pipelines -/

private def twoEndpoints (id : Nat) : Strategy Unit where
  id
  hashKey := fun _ => none
  select := fun _ _ tried => (([⟨0, "10.0.0.1:80"⟩, ⟨1, "10.0.0.2:80"⟩] : List ArcStr).find? fun a => !tried.any (·.str == a.str), ())
  release := fun _ _ => ()

private def retrying : RetryPolicy := { RetryPolicy.legacyDefault with configured := true }

private def webBalancer (id : Nat) : LoadBalancerFilter Unit where
  clusters := [("web",
    { strategy := twoEndpoints id
      applicationProtocol := none
      applicationProvider := none
      retryPolicy := retrying
      retryState := id })]
  clusterSource := .router
  health := fun _ _ => none

/-- A router with one route. -/
private def webRouter : HttpFilter (World Unit) :=
  { (HttpFilter.noop "router" : HttpFilter (World Unit)) with
    onRequest := fun _ ex => ({ ex with cluster := some "web" }, .ok .proceed)
    selectsCluster := true
    selectedClusters := ["web"] }

/-- A registry for entries whose configuration is the filter. -/
private def webRegistry : FilterRegistry (World Unit) (HttpFilter (World Unit)) where
  create := fun _ f _ budget => .ok (.http f, budget)
  isSecurityFilter := fun _ => false

private def webHead (f : HttpFilter (World Unit)) : EntryHead (HttpFilter (World Unit)) :=
  { filterType := f.name, config := f, conditions := [], name := none, responseConditions := [], failureMode := .closed }

private def webEntries : List (FilterEntry (HttpFilter (World Unit))) :=
  [.mk (webHead webRouter) none, .mk (webHead (webBalancer 0).toHttpFilter) none]

/-- The same, with a second load balancer in a branch of a filter behind them. -/
private def branchedEntries : List (FilterEntry (HttpFilter (World Unit))) :=
  webEntries ++ [.mk (webHead (.noop "headers")) (some [.mk
    { name := "second", maxIterations := none, onResult := none, rejoin := "next" }
    [.inline "second_chain" [.mk (webHead (webBalancer 1).toHttpFilter) none]]])]

private def webFilters : List (PipelineFilter (World Unit)) :=
  [.mk (.plain 0 none (.http webRouter)) [], .mk (.plain 1 none (.http (webBalancer 0).toHttpFilter)) []]

private def branchedFilters : List (PipelineFilter (World Unit)) :=
  webFilters ++ [.mk (.plain 2 none (.http (.noop "headers")))
    [.mk { name := "second", condition := none, maxIterations := none, rejoin := .next }
      [.mk (.plain 3 none (.http (webBalancer 1).toHttpFilter)) []]]]

private def seenByRetry : RetryCtx := { body := .fresh 0 false, retries := 0, requestIsIdempotent := true, elapsed := 0 }

/-- The first endpoint cannot be reached, the second answers. -/
private def retriedEvents : List Event :=
  [.request 4 false, .attempt fun _ => none, .fail .connectFailure seenByRetry true 0, .attempt fun _ => none, .body,
    .respond { status := 200, headers := [] } true seenByRetry true 0, .finish]

private def webStart : Flight Unit := start ⟨"GET", "/", []⟩ none 0 ()

/-- The checks accept a second load balancer in a branch. It did not select, but is released for the endpoint the
other one selected, and the lease is left twice. -/
theorem branch_balancer_unbalanced : ∃ t : Flight Unit,
    buildWithChains webRegistry (fun _ => none) branchedEntries = .ok branchedFilters ∧
    orderingErrors (fun _ => false) false .none branchedFilters = [] ∧
    run (step branchedFilters) webStart retriedEvents = some t ∧ t.phase = .complete ∧ ¬ Balanced t.accounts.ledger := by
  obtain ⟨t, ht⟩ := isSome_iff_exists.1
    (show (run (step branchedFilters) webStart retriedEvents).isSome = true by decide +kernel)
  have hph : (run (step branchedFilters) webStart retriedEvents).all (fun t => t.phase = .complete) = true := by
    decide +kernel
  have hledger : (run (step branchedFilters) webStart retriedEvents).all (fun t => !decide (Balanced t.accounts.ledger)) = true := by
    decide +kernel
  rw [ht] at hph hledger
  exact ⟨t, rfl, by decide +kernel, ht, by simpa using hph, by simpa using hledger⟩

private theorem mem_webFilters {pf : PipelineFilter (World Unit)} (h : pf ∈ subfilters webFilters) :
    pf = .mk (.plain 0 none (.http webRouter)) [] ∨ pf = .mk (.plain 1 none (.http (webBalancer 0).toHttpFilter)) [] := by
  have hsub : subfilters webFilters = [.mk (.plain 0 none (.http webRouter)) [],
    .mk (.plain 1 none (.http (webBalancer 0).toHttpFilter)) []] := rfl
  rw [hsub] at h
  simpa using h

private theorem web_equipped : Equipped webFilters := by
  constructor
  · intro pf hpf hlb
    rcases mem_webFilters hpf with rfl | rfl
    · cases hlb
    · exact ⟨webBalancer 0, rfl⟩
  · intro pf hpf hlb f hf
    rcases mem_webFilters hpf with rfl | rfl
    · cases hf
      exact ⟨fun _ _ => rfl, fun _ _ => Nat.le_refl _, fun _ _ => rfl⟩
    · cases hlb

private theorem web_passes (pf : PipelineFilter (World Unit)) (hpf : pf ∈ subfilters webFilters) : Passes pf := by
  intro f hf books ex
  rcases mem_webFilters hpf with rfl | rfl
  · cases hf
    rfl
  · cases hf
    show responseOutcome ((webBalancer 0).onResponse books ex).2 _ = .ok none
    rw [((webBalancer 0).onResponse_frame books ex).1]
    rfl

private theorem web_steady : Steady webFilters := by
  refine ⟨?_, ?_, pairwise_of_forall_mem_list fun _ _ q hq _ => web_passes q hq⟩
  · intro pf hpf hlb f hf books ex
    rcases mem_webFilters hpf with rfl | rfl
    · cases hf
      exact ⟨rfl, rfl⟩
    · cases hlb
  · intro pf hpf _
    rcases mem_webFilters hpf with rfl | rfl <;> rfl

/-- The router, which has the id 0, was not called again. -/
private theorem web_unreplaced {log : List Pipeline.Event}
    (h : log.Pairwise fun e e' => e.isReturnOf 1 = true → e'.isCallOf 0 = false) : Unreplaced webFilters log := by
  refine h.imp fun {e e'} hnot p hp hlb hreturn q hq hother hcall => ?_
  rcases mem_webFilters hp with rfl | rfl
  · cases hlb
  · rcases mem_webFilters hq with rfl | rfl
    · cases hcall.symm.trans (hnot hreturn)
    · cases hother

private theorem web_orderly : Along (step webFilters) (Orderly webFilters) webStart retriedEvents := by
  have htracked : Along (step webFilters) (fun s event =>
      (s.ctx.log.Pairwise fun e e' => e.isReturnOf 1 = true → e'.isCallOf 0 = false) ∧ s.Tracked webFilters event)
      webStart retriedEvents := by decide
  exact Along.of_invariant (I := fun _ => True) (fun _ _ _ h => ⟨web_unreplaced h.1, h.2⟩) (fun _ _ _ _ _ _ => trivial) trivial
    htracked

/-- One load balancer gives back what it took, both endpoints and the lease. -/
theorem one_balancer_balanced : ∃ t : Flight Unit,
    run (step webFilters) webStart retriedEvents = some t ∧ t.phase = .complete ∧
      taken t.accounts.ledger = [.slot 0 "10.0.0.1:80", .lease 0, .slot 0 "10.0.0.2:80"] ∧ Balanced t.accounts.ledger := by
  obtain ⟨t, ht⟩ := isSome_iff_exists.1
    (show (run (step webFilters) webStart retriedEvents).isSome = true from rfl)
  have hph : (run (step webFilters) webStart retriedEvents).all (fun t => t.phase = .complete) = true := rfl
  have htaken : (run (step webFilters) webStart retriedEvents).all (fun t =>
    taken t.accounts.ledger = [.slot 0 "10.0.0.1:80", .lease 0, .slot 0 "10.0.0.2:80"]) = true := rfl
  rw [ht] at hph htaken
  have hph : t.phase = .complete := by simpa using hph
  have hbuild : buildWithChains webRegistry (fun _ => none) webEntries = .ok webFilters := rfl
  exact ⟨t, ht, hph, by simpa using htaken, accounts_balanced hbuild web_equipped web_steady
    web_orderly ht hph⟩

end Flight

end Praxis.LoadBalancer
