/-
Hot reload. A listener's handler is bound once and keeps what it captured from the configuration
at startup; a reload replaces pipelines only. The guards refuse a reload that would change a
captured setting, mostly by comparing with the configuration that was accepted last.
-/
import Mathlib.Data.List.Nodup
import Praxis.Lib.Except

namespace Praxis.Reload

open List

open Praxis.Lib (bind_eq_ok)

/-! ## Configurations -/

inductive ProtocolKind where
  | http
  | tcp
deriving Repr, DecidableEq

/-- `ProtocolKind` as `{:?}` writes it. -/
def ProtocolKind.debug : ProtocolKind → String
  | .http => "Http"
  | .tcp => "Tcp"

structure DestinationRule where
  host : String
  port : Option Nat
deriving Repr, DecidableEq

structure ForwardProxyConfig where
  enabled : Bool
  idleTimeoutMs : Nat
  maxDurationSecs : Option Nat
  allowDestinations : List DestinationRule
deriving Repr, DecidableEq

/-- What the guards and the grouping of TCP listeners read of a listener. -/
structure Listener where
  name : String
  protocol : ProtocolKind
  upstream : Option String
  cluster : Option String
  tcpSessionTimeoutMs : Option Nat
  tcpMaxDurationSecs : Option Nat
  filterChains : List String
  maxConnections : Option Nat
  forwardProxy : Option ForwardProxyConfig
deriving Repr, DecidableEq

/-- A validated configuration: `validate_listener_names` refuses a name that occurs twice. -/
structure Config where
  listeners : List Listener
  allowPrivateUpstreams : Bool
  nodup : (listeners.map (·.name)).Nodup

/-- The listener of a name. -/
def Config.find (cfg : Config) (name : String) : Option Listener := cfg.listeners.find? fun l => l.name == name

def tcpGroupKey (l : Listener) : Option String × Option String × Option Nat × Option Nat :=
  (l.upstream, l.cluster, l.tcpSessionTimeoutMs, l.tcpMaxDurationSecs)

/-- `ListenerPipelines`: the names with a slot, and the protocol each was resolved for. A swap
changes neither. -/
structure ListenerPipelines where
  protocols : List (String × ProtocolKind)

def ListenerPipelines.protocol (live : ListenerPipelines) (name : String) : Option ProtocolKind := live.protocols.lookup name

/-- `get(name).is_some()`. -/
def ListenerPipelines.has (live : ListenerPipelines) (name : String) : Bool := live.protocols.any fun p => p.1 == name

/-- `resolve_pipelines`, as far as the guards read it. -/
def resolvePipelines (cfg : Config) : ListenerPipelines := ⟨cfg.listeners.map fun l => (l.name, l.protocol)⟩

/-! ## Guards -/

def rejectProtocolChanges (new : Config) (live : ListenerPipelines) : Except String Unit :=
  match new.listeners.findSome? fun l => ((live.protocol l.name).filter fun bound => bound != l.protocol).map fun bound => (l, bound) with
  | none => .ok ()
  | some (l, bound) =>
    .error s!"listener '{l.name}' protocol changed from {bound.debug} to {l.protocol.debug}; a bound handler cannot switch protocols without a restart"

/-- `validate_tcp_group_consistency`, over the listeners still to be placed in the groups before
them. -/
def validateTcpGroupsFrom (groups : List Listener) : List Listener → Except String Unit
  | [] => .ok ()
  | l :: rest =>
    match groups.find? fun first => tcpGroupKey first == tcpGroupKey l with
    | none => validateTcpGroupsFrom (groups ++ [l]) rest
    | some first =>
      if l.filterChains != first.filterChains then
        .error s!"TCP listeners '{first.name}' and '{l.name}' share the same upstream/timeout group but have different filter_chains; grouped listeners must use identical chains"
      else if l.maxConnections != first.maxConnections then
        .error s!"TCP listeners '{first.name}' and '{l.name}' share the same upstream/timeout group but have different max_connections; grouped listeners must use identical limits"
      else validateTcpGroupsFrom groups rest

def validateTcpGroups (cfg : Config) : Except String Unit :=
  validateTcpGroupsFrom [] (cfg.listeners.filter fun l => l.protocol == .tcp)

/-- The loop of `reject_tcp_group_changes`. -/
def rejectTcpListenerChanges (new : Config) : List Listener → Except String Unit
  | [] => .ok ()
  | old :: rest =>
    match new.find old.name with
    | none => .error s!"TCP listener '{old.name}' removed; TCP listener topology requires a restart"
    | some l =>
      if l.protocol != .tcp then rejectTcpListenerChanges new rest
      else if tcpGroupKey old != tcpGroupKey l then
        .error s!"TCP listener '{old.name}' changed upstream/cluster/timeouts; requires restart"
      else rejectTcpListenerChanges new rest

def rejectTcpGroupChanges (new old : Config) : Except String Unit :=
  let oldTcp := old.listeners.filter fun l => l.protocol == .tcp
  if !oldTcp.isEmpty && old.allowPrivateUpstreams != new.allowPrivateUpstreams then
    .error "allow_private_upstreams is captured by TCP listeners at startup; requires restart"
  else rejectTcpListenerChanges new oldTcp

def rejectPrivateUpstreamsFlipWithConnect (new old : Config) (live : ListenerPipelines) : Except String Unit :=
  let boundConnect := old.listeners.any fun l => live.has l.name && l.forwardProxy.any (·.enabled)
  if boundConnect && old.allowPrivateUpstreams != new.allowPrivateUpstreams then
    .error "allow_private_upstreams is captured by forward_proxy listeners at startup; requires restart"
  else .ok ()

def rejectForwardProxyChanges (new old : Config) (live : ListenerPipelines) : Except String Unit :=
  match rejectPrivateUpstreamsFlipWithConnect new old live with
  | .error e => .error e
  | .ok () =>
    match new.listeners.find? fun l => live.has l.name && l.forwardProxy != (old.find l.name).bind (·.forwardProxy) with
    | some changed => .error s!"listener '{changed.name}' forward_proxy changed; requires restart"
    | none =>
      match old.listeners.find? fun l =>
          l.forwardProxy.isSome && live.has l.name && !new.listeners.any fun l' => l'.name == l.name with
      | some removed => .error s!"listener '{removed.name}' with a forward_proxy block removed; requires restart"
      | none => .ok ()

/-- `reload_pipelines`; `build` is what the construction of the pipelines and the refresh of the
log level give. -/
def reloadPipelines (new old : Config) (live : ListenerPipelines) (build : Except String Unit) : Except String Unit := do
  rejectProtocolChanges new live
  validateTcpGroups new
  rejectTcpGroupChanges new old
  rejectForwardProxyChanges new old live
  build

/-- A configuration that is read, and what building it gives. -/
structure Attempt where
  config : Config
  build : Except String Unit

/-- One pass of `handle_reload`: the current configuration changes only if the reload succeeds. -/
def handleReload (live : ListenerPipelines) (cur : Config) (attempt : Attempt) : Config :=
  match reloadPipelines attempt.config cur live attempt.build with
  | .ok () => attempt.config
  | .error _ => cur

/-! ## What the guards ensure -/

variable {cfg startup new old : Config} {l : Listener} {live : ListenerPipelines}

theorem Config.eq_of_name {l' : Listener} (h : l ∈ cfg.listeners) (h' : l' ∈ cfg.listeners) (hname : l.name = l'.name) :
    l = l' := inj_on_of_nodup_map cfg.nodup h h' hname

theorem Config.find_of_mem (h : l ∈ cfg.listeners) : cfg.find l.name = some l := by
  cases hfind : cfg.find l.name with
  | none => simpa using find?_eq_none.1 hfind l h
  | some l' =>
    have hname : l'.name = l.name := by simpa using find?_some hfind
    rw [Config.eq_of_name (mem_of_find?_eq_some hfind) h hname]

theorem resolvePipelines_has {name : String} :
    (resolvePipelines startup).has name ↔ ∃ l ∈ startup.listeners, l.name = name := by
  simp [ListenerPipelines.has, resolvePipelines]

theorem lookup_protocol (listeners : List Listener) (name : String) :
    (listeners.map fun l => (l.name, l.protocol)).lookup name = (listeners.find? fun l => l.name == name).map (·.protocol) := by
  induction listeners with
  | nil => rfl
  | cons l rest ih =>
    have hcomm : (name == l.name) = (l.name == name) := BEq.comm
    rw [map_cons, lookup_cons, find?_cons, ih, hcomm]
    cases l.name == name <;> rfl

theorem resolvePipelines_protocol (h : l ∈ startup.listeners) :
    (resolvePipelines startup).protocol l.name = some l.protocol := by
  have hfind : startup.listeners.find? (fun l' => l'.name == l.name) = some l := Config.find_of_mem h
  rw [ListenerPipelines.protocol, resolvePipelines, lookup_protocol, hfind]
  rfl

/-- What a reload that goes through has been checked for. -/
structure Checked (new old : Config) (live : ListenerPipelines) : Prop where
  protocol : ∀ l ∈ new.listeners, ∀ bound, live.protocol l.name = some bound → bound = l.protocol
  tcp : ∀ l ∈ old.listeners, l.protocol = .tcp →
    old.allowPrivateUpstreams = new.allowPrivateUpstreams ∧
    ∃ l' ∈ new.listeners, l'.name = l.name ∧ (l'.protocol = .tcp → tcpGroupKey l = tcpGroupKey l')
  connect : ∀ l ∈ old.listeners, live.has l.name → l.forwardProxy.any (·.enabled) →
    old.allowPrivateUpstreams = new.allowPrivateUpstreams
  block : ∀ l ∈ new.listeners, live.has l.name → l.forwardProxy = (old.find l.name).bind (·.forwardProxy)
  kept : ∀ l ∈ old.listeners, live.has l.name → l.forwardProxy.isSome → ∃ l' ∈ new.listeners, l'.name = l.name

theorem Config.find_eq_some {name : String} : cfg.find name = some l ↔ l ∈ cfg.listeners ∧ l.name = name := by
  constructor
  · intro hfind
    exact ⟨mem_of_find?_eq_some hfind, by simpa using find?_some hfind⟩
  · rintro ⟨hl, rfl⟩
    exact Config.find_of_mem hl

theorem rejectProtocolChanges_iff : rejectProtocolChanges new live = .ok () ↔
    ∀ l ∈ new.listeners, ∀ bound, live.protocol l.name = some bound → bound = l.protocol := by
  have hfound : (new.listeners.findSome? fun l =>
      ((live.protocol l.name).filter fun bound => bound != l.protocol).map fun bound => (l, bound)) = none ↔
      ∀ l ∈ new.listeners, ∀ bound, live.protocol l.name = some bound → bound = l.protocol := by
    simp [findSome?_eq_none_iff, Option.filter_eq_none_iff]
  rw [← hfound]
  unfold rejectProtocolChanges
  split
  case h_1 hnone => simp [hnone]
  case h_2 hsome => simp [hsome]

theorem rejectTcpListenerChanges_iff {listeners : List Listener} : rejectTcpListenerChanges new listeners = .ok () ↔
    ∀ l ∈ listeners, ∃ l' ∈ new.listeners, l'.name = l.name ∧ (l'.protocol = .tcp → tcpGroupKey l = tcpGroupKey l') := by
  induction listeners with
  | nil => simp [rejectTcpListenerChanges]
  | cons old rest ih =>
    have hfind : (∃ l' ∈ new.listeners, l'.name = old.name ∧ (l'.protocol = .tcp → tcpGroupKey old = tcpGroupKey l')) ↔
        ∃ l', new.find old.name = some l' ∧ (l'.protocol = .tcp → tcpGroupKey old = tcpGroupKey l') := by
      simp only [Config.find_eq_some, and_assoc]
    rw [rejectTcpListenerChanges, forall_mem_cons, hfind, ← ih]
    cases new.find old.name with
    | none => simp
    | some l' =>
      by_cases htcp : l'.protocol = .tcp
      · by_cases hkey : tcpGroupKey old = tcpGroupKey l' <;> simp [htcp, hkey]
      · simp [htcp]

theorem rejectTcpGroupChanges_iff : rejectTcpGroupChanges new old = .ok () ↔
    ∀ l ∈ old.listeners, l.protocol = .tcp →
      old.allowPrivateUpstreams = new.allowPrivateUpstreams ∧
      ∃ l' ∈ new.listeners, l'.name = l.name ∧ (l'.protocol = .tcp → tcpGroupKey l = tcpGroupKey l') := by
  unfold rejectTcpGroupChanges
  dsimp only
  split_ifs with hflip
  · obtain ⟨⟨l, hl, htcp⟩, hne⟩ : (∃ l ∈ old.listeners, l.protocol = .tcp) ∧ old.allowPrivateUpstreams ≠ new.allowPrivateUpstreams := by
      simpa using hflip
    exact iff_of_false (by rintro ⟨⟩) fun hall => hne (hall l hl htcp).1
  · have hsame : ∀ l ∈ old.listeners, l.protocol = .tcp → old.allowPrivateUpstreams = new.allowPrivateUpstreams := by
      simpa using hflip
    simp only [rejectTcpListenerChanges_iff, mem_filter, beq_iff_eq, and_imp]
    exact forall₃_congr fun l hl htcp => (and_iff_right (hsame l hl htcp)).symm

theorem rejectForwardProxyChanges_iff : rejectForwardProxyChanges new old live = .ok () ↔
    (∀ l ∈ old.listeners, live.has l.name → l.forwardProxy.any (·.enabled) →
      old.allowPrivateUpstreams = new.allowPrivateUpstreams) ∧
    (∀ l ∈ new.listeners, live.has l.name → l.forwardProxy = (old.find l.name).bind (·.forwardProxy)) ∧
    ∀ l ∈ old.listeners, live.has l.name → l.forwardProxy.isSome → ∃ l' ∈ new.listeners, l'.name = l.name := by
  have hflip : rejectPrivateUpstreamsFlipWithConnect new old live = .ok () ↔ ∀ l ∈ old.listeners, live.has l.name →
      l.forwardProxy.any (·.enabled) → old.allowPrivateUpstreams = new.allowPrivateUpstreams := by
    unfold rejectPrivateUpstreamsFlipWithConnect
    by_cases hsame : old.allowPrivateUpstreams = new.allowPrivateUpstreams <;> simp [hsame]
  have hchanged : (new.listeners.find? fun l => live.has l.name && l.forwardProxy != (old.find l.name).bind (·.forwardProxy)) = none ↔
      ∀ l ∈ new.listeners, live.has l.name → l.forwardProxy = (old.find l.name).bind (·.forwardProxy) := by
    simp [find?_eq_none]
  have hremoved : (old.listeners.find? fun l =>
        l.forwardProxy.isSome && live.has l.name && !new.listeners.any fun l' => l'.name == l.name) = none ↔
      ∀ l ∈ old.listeners, live.has l.name → l.forwardProxy.isSome → ∃ l' ∈ new.listeners, l'.name = l.name := by
    simp only [find?_eq_none, Bool.and_eq_true, Bool.not_eq_true', any_eq_false, beq_iff_eq]
    grind
  rw [← hflip, ← hchanged, ← hremoved]
  unfold rejectForwardProxyChanges
  split
  case h_1 e he => simp [he]
  case h_2 hok =>
    split
    case h_1 hsome => simp [hsome]
    case h_2 hnone =>
      split
      case h_1 hsome => simp [hsome]
      case h_2 hnone' => simp [hok, hnone, hnone']

theorem reloadPipelines_ok {build : Except String Unit} (h : reloadPipelines new old live build = .ok ()) :
    Checked new old live := by
  obtain ⟨_, hprotocol, h⟩ := bind_eq_ok h
  obtain ⟨_, -, h⟩ := bind_eq_ok h
  obtain ⟨_, htcp, h⟩ := bind_eq_ok h
  obtain ⟨_, hforward, -⟩ := bind_eq_ok h
  obtain ⟨hconnect, hblock, hkept⟩ := rejectForwardProxyChanges_iff.1 hforward
  exact ⟨rejectProtocolChanges_iff.1 hprotocol, rejectTcpGroupChanges_iff.1 htcp, hconnect, hblock, hkept⟩

/-! ## Runs of reloads -/

/-- The configuration still describes what the handlers bound at startup have captured. -/
structure Fresh (startup cur : Config) : Prop where
  protocol : ∀ l ∈ startup.listeners, ∀ l' ∈ cur.listeners, l'.name = l.name → l'.protocol = l.protocol
  block : ∀ l ∈ startup.listeners, ∀ l' ∈ cur.listeners, l'.name = l.name → l'.forwardProxy = l.forwardProxy
  tcp : ∀ l ∈ startup.listeners, l.protocol = .tcp → ∀ l' ∈ cur.listeners, l'.name = l.name →
    l'.upstream = l.upstream ∧ l'.cluster = l.cluster ∧ l'.tcpSessionTimeoutMs = l.tcpSessionTimeoutMs ∧
      l'.tcpMaxDurationSecs = l.tcpMaxDurationSecs
  present : ∀ l ∈ startup.listeners, l.protocol = .tcp ∨ l.forwardProxy.isSome → ∃ l' ∈ cur.listeners, l'.name = l.name
  upstreams : (∃ l ∈ startup.listeners, l.protocol = .tcp ∨ l.forwardProxy.any (·.enabled)) →
    cur.allowPrivateUpstreams = startup.allowPrivateUpstreams

theorem fresh_refl (startup : Config) : Fresh startup startup where
  protocol _ hl _ hl' hname := congrArg Listener.protocol (Config.eq_of_name hl' hl hname)
  block _ hl _ hl' hname := congrArg Listener.forwardProxy (Config.eq_of_name hl' hl hname)
  tcp _ hl _ _ hl' hname := by
    rw [Config.eq_of_name hl' hl hname]
    exact ⟨rfl, rfl, rfl, rfl⟩
  present l hl _ := ⟨l, hl, rfl⟩
  upstreams _ := rfl

section

variable {startup cur new : Config} (hfresh : Fresh startup cur)
include hfresh

variable {l : Listener}

theorem Fresh.tcp_before (hl : l ∈ startup.listeners) (htcp : l.protocol = .tcp) :
    ∃ before ∈ cur.listeners, before.name = l.name ∧ before.protocol = .tcp := by
  obtain ⟨before, hbefore, hname⟩ := hfresh.present l hl (.inl htcp)
  exact ⟨before, hbefore, hname, (hfresh.protocol l hl before hbefore hname).trans htcp⟩

theorem Fresh.block_before (hl : l ∈ startup.listeners) (hblock : l.forwardProxy.isSome) :
    ∃ before ∈ cur.listeners, before.name = l.name ∧ before.forwardProxy = l.forwardProxy ∧
      (resolvePipelines startup).has before.name := by
  obtain ⟨before, hbefore, hname⟩ := hfresh.present l hl (.inr hblock)
  exact ⟨before, hbefore, hname, hfresh.block l hl before hbefore hname, resolvePipelines_has.2 ⟨l, hl, hname.symm⟩⟩

variable (hchecked : Checked new cur (resolvePipelines startup))
include hchecked

/-- The guard compares with the last accepted configuration. A bound listener that is absent there
started without a block, and so the block is compared with the one at startup in any case. -/
theorem Fresh.block_step {l' : Listener} (hl : l ∈ startup.listeners) (hl' : l' ∈ new.listeners) (hname : l'.name = l.name) :
    l'.forwardProxy = l.forwardProxy := by
  have hblock := hchecked.block l' hl' (resolvePipelines_has.2 ⟨l, hl, hname.symm⟩)
  rw [hblock, hname]
  cases hfind : cur.find l.name with
  | some before =>
    have hbefore : before.name = l.name := by simpa using find?_some hfind
    exact hfresh.block l hl before (mem_of_find?_eq_some hfind) hbefore
  | none =>
    by_contra hne
    have hsome : l.forwardProxy.isSome := by
      cases hproxy : l.forwardProxy with
      | none => exact absurd hproxy.symm hne
      | some block => rfl
    obtain ⟨before, hbefore, hbeforeName⟩ := hfresh.present l hl (.inr hsome)
    have hfound := Config.find_of_mem hbefore
    rw [hbeforeName, hfind] at hfound
    cases hfound

theorem Fresh.step : Fresh startup new := by
  have hprotocol : ∀ l ∈ startup.listeners, ∀ l' ∈ new.listeners, l'.name = l.name → l'.protocol = l.protocol := by
    intro l hl l' hl' hname
    refine (hchecked.protocol l' hl' l.protocol ?_).symm
    rw [hname, resolvePipelines_protocol hl]
  refine ⟨hprotocol, fun l hl l' hl' hname => hfresh.block_step hchecked hl hl' hname, ?_, ?_, ?_⟩
  · intro l hl htcp l' hl' hname
    obtain ⟨before, hbefore, hbeforeName, hbeforeTcp⟩ := hfresh.tcp_before hl htcp
    obtain ⟨-, l'', hl'', hname', hkey⟩ := hchecked.tcp before hbefore hbeforeTcp
    obtain rfl : l'' = l' := Config.eq_of_name hl'' hl' ((hname'.trans hbeforeName).trans hname.symm)
    have hkey := hkey ((hprotocol l hl l'' hl'' hname).trans htcp)
    have hstartup := hfresh.tcp l hl htcp before hbefore hbeforeName
    simp only [tcpGroupKey, Prod.mk.injEq] at hkey
    exact ⟨hkey.1 ▸ hstartup.1, hkey.2.1 ▸ hstartup.2.1, hkey.2.2.1 ▸ hstartup.2.2.1, hkey.2.2.2 ▸ hstartup.2.2.2⟩
  · rintro l hl (htcp | hblock)
    · obtain ⟨before, hbefore, hbeforeName, hbeforeTcp⟩ := hfresh.tcp_before hl htcp
      obtain ⟨-, l', hl', hname, -⟩ := hchecked.tcp before hbefore hbeforeTcp
      exact ⟨l', hl', hname.trans hbeforeName⟩
    · obtain ⟨before, hbefore, hbeforeName, hbeforeBlock, hlive⟩ := hfresh.block_before hl hblock
      obtain ⟨l', hl', hname⟩ := hchecked.kept before hbefore hlive (hbeforeBlock ▸ hblock)
      exact ⟨l', hl', hname.trans hbeforeName⟩
  · intro hcaptures
    rw [← hfresh.upstreams hcaptures]
    obtain ⟨l, hl, htcp | henabled⟩ := hcaptures
    · obtain ⟨before, hbefore, -, hbeforeTcp⟩ := hfresh.tcp_before hl htcp
      exact (hchecked.tcp before hbefore hbeforeTcp).1.symm
    · have hblock : l.forwardProxy.isSome := by
        cases hproxy : l.forwardProxy <;> simp_all
      obtain ⟨before, hbefore, -, hbeforeBlock, hlive⟩ := hfresh.block_before hl hblock
      exact (hchecked.connect before hbefore hlive (hbeforeBlock ▸ henabled)).symm

end

/-- The configuration that is current after the reloads. -/
def reloaded (startup : Config) (attempts : List Attempt) : Config :=
  attempts.foldl (handleReload (resolvePipelines startup)) startup

theorem Fresh.handleReload {startup cur : Config} (h : Fresh startup cur) (attempt : Attempt) :
    Fresh startup (Reload.handleReload (resolvePipelines startup) cur attempt) := by
  unfold Reload.handleReload
  split
  case h_1 hreload => exact h.step (reloadPipelines_ok hreload)
  case h_2 => exact h

/-- Whatever is reloaded, in whatever order, what the handlers captured does not go stale. -/
theorem captured_settings_fresh (startup : Config) (attempts : List Attempt) :
    Fresh startup (attempts.foldl (handleReload (resolvePipelines startup)) startup) :=
  foldlRecOn attempts _ (fresh_refl startup) fun _ hfresh attempt _ => hfresh.handleReload attempt

/-! ## Listeners that are not bound -/

/-- The configuration agrees with the current one on the bound listeners, and on the setting that some of them captured. -/
structure AgreesOnBound (startup cur new : Config) : Prop where
  listeners : ∀ l ∈ startup.listeners, new.find l.name = cur.find l.name
  upstreams : (∃ l ∈ startup.listeners, l.protocol = .tcp ∨ l.forwardProxy.any (·.enabled)) →
    cur.allowPrivateUpstreams = new.allowPrivateUpstreams

/-- A TCP listener that came with an earlier reload, and so is not bound, stays in its group, with the setting it
would have captured. -/
def UnboundTcpKept (startup cur new : Config) : Prop :=
  ∀ l ∈ cur.listeners, l.protocol = .tcp → (∀ bound ∈ startup.listeners, bound.name ≠ l.name) →
    cur.allowPrivateUpstreams = new.allowPrivateUpstreams ∧
    ∃ l' ∈ new.listeners, l'.name = l.name ∧ (l'.protocol = .tcp → tcpGroupKey l = tcpGroupKey l')

section

variable {startup cur new : Config} (hfresh : Fresh startup cur) (hagrees : AgreesOnBound startup cur new)
  {bound l : Listener}
include hagrees

theorem AgreesOnBound.mem_iff (hbound : bound ∈ startup.listeners) (hname : bound.name = l.name) :
    l ∈ new.listeners ↔ l ∈ cur.listeners := by
  have hfind : new.find l.name = some l ↔ cur.find l.name = some l := by
    rw [← hname, hagrees.listeners bound hbound]
  simpa only [Config.find_eq_some, and_true] using hfind

include hfresh

theorem Fresh.accepts_protocols : rejectProtocolChanges new (resolvePipelines startup) = .ok () := by
  refine rejectProtocolChanges_iff.2 fun l hl protocol hprotocol => ?_
  rw [ListenerPipelines.protocol, resolvePipelines, lookup_protocol] at hprotocol
  obtain ⟨bound, hfind, rfl⟩ := Option.map_eq_some_iff.1 hprotocol
  obtain ⟨hbound, hname⟩ := Config.find_eq_some.1 hfind
  exact (hfresh.protocol bound hbound l ((hagrees.mem_iff hbound hname).1 hl) hname.symm).symm

theorem Fresh.accepts_forwardProxies : rejectForwardProxyChanges new cur (resolvePipelines startup) = .ok () := by
  refine rejectForwardProxyChanges_iff.2 ⟨fun l hl hlive henabled => ?_, fun l hl hlive => ?_, fun l hl hlive _ => ?_⟩
  all_goals obtain ⟨bound, hbound, hname⟩ := resolvePipelines_has.1 hlive
  · rw [hfresh.block bound hbound l hl hname.symm] at henabled
    exact hagrees.upstreams ⟨bound, hbound, .inr henabled⟩
  · rw [Config.find_of_mem ((hagrees.mem_iff hbound hname).1 hl)]
    rfl
  · exact ⟨l, (hagrees.mem_iff hbound hname).2 hl, rfl⟩

theorem Fresh.accepts_tcpGroups_iff : rejectTcpGroupChanges new cur = .ok () ↔ UnboundTcpKept startup cur new := by
  rw [rejectTcpGroupChanges_iff]
  constructor
  · exact fun hall l hl htcp _ => hall l hl htcp
  · intro hkept l hl htcp
    by_cases hbound : ∃ bound ∈ startup.listeners, bound.name = l.name
    · obtain ⟨bound, hbound, hname⟩ := hbound
      have hcaptured := (hfresh.protocol bound hbound l hl hname.symm).symm.trans htcp
      exact ⟨hagrees.upstreams ⟨bound, hbound, .inl hcaptured⟩, l, (hagrees.mem_iff hbound hname).2 hl, rfl, fun _ => rfl⟩
    · exact hkept l hl htcp fun bound hmem hname => hbound ⟨bound, hmem, hname⟩

end

/-- After any reloads, a configuration that agrees on the bound listeners passes the guards exactly when it also keeps
the TCP listeners that are not bound. -/
theorem guards_accept_iff (startup : Config) (attempts : List Attempt) (new : Config)
    (hagrees : AgreesOnBound startup (reloaded startup attempts) new) :
    (rejectProtocolChanges new (resolvePipelines startup) = .ok () ∧
      rejectTcpGroupChanges new (reloaded startup attempts) = .ok () ∧
      rejectForwardProxyChanges new (reloaded startup attempts) (resolvePipelines startup) = .ok ()) ↔
    UnboundTcpKept startup (reloaded startup attempts) new := by
  have hfresh : Fresh startup (reloaded startup attempts) :=
    foldlRecOn attempts _ (fresh_refl startup) fun _ h attempt _ => h.handleReload attempt
  rw [hfresh.accepts_tcpGroups_iff hagrees]
  constructor
  · exact fun h => h.2.1
  · exact fun hkept => ⟨hfresh.accepts_protocols hagrees, hkept, hfresh.accepts_forwardProxies hagrees⟩

private def http (name : String) : Listener := ⟨name, .http, none, none, none, none, ["main"], none, none⟩

private def database : Listener := ⟨"db", .tcp, some "10.0.0.5:5432", none, none, none, [], none, none⟩

private def webOnly : Config := ⟨[http "web"], false, by decide⟩

private def withDatabase : Config := ⟨[http "web", database], false, by decide⟩

/-- A TCP listener is added and taken back; no handler was ever bound for it. -/
theorem unbound_removal_refused :
    AgreesOnBound webOnly (reloaded webOnly [⟨withDatabase, .ok ()⟩]) webOnly ∧
    rejectTcpGroupChanges webOnly (reloaded webOnly [⟨withDatabase, .ok ()⟩]) ≠ .ok () := by
  have hcurrent : reloaded webOnly [⟨withDatabase, .ok ()⟩] = withDatabase := rfl
  rw [hcurrent]
  refine ⟨⟨?_, fun _ => rfl⟩, by rintro ⟨⟩⟩
  rintro l (_ | ⟨_, ⟨⟩⟩)
  rfl

/-- With the database kept, another listener may come. -/
theorem unbound_addition_accepted :
    rejectTcpGroupChanges ⟨[http "api", database, http "web"], false, by decide⟩
      (reloaded webOnly [⟨withDatabase, .ok ()⟩]) = .ok () := by
  have hcurrent : reloaded webOnly [⟨withDatabase, .ok ()⟩] = withDatabase := rfl
  refine ((guards_accept_iff webOnly [⟨withDatabase, .ok ()⟩] _ ⟨?_, fun _ => ?_⟩).2 ?_).2.1
  · rintro l (_ | ⟨_, ⟨⟩⟩)
    rfl
  · rfl
  · rw [hcurrent]
    rintro l (_ | ⟨_, _ | ⟨_, ⟨⟩⟩⟩) htcp -
    · cases htcp
    · exact ⟨rfl, database, by decide, rfl, fun _ => rfl⟩

end Praxis.Reload
