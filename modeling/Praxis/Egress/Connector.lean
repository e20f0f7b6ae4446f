/-
The connector over its whole life: TLS material is allocated and freed, peers come and go, and
connects, dials and releases of many callers interleave. A freed address may come back for other
material as soon as no strong or weak handle is left on it.

What a session runs on is found through keys that compare material by address. The handles that exist
at one time tell addresses apart, so equal keys name the same material; and a key finds its own
connections as long as the pool's order numbers do not start over.
-/
import Praxis.Egress.Pool
import Praxis.Lib.Machine

namespace Praxis.Egress

open PoolKey List Option

open Praxis.Lib (Handle run Along run_cons run_append run_invariant)
open Praxis.Lib.AssocMap (get? remove insertAt mem_of_get?)

/-! ## State -/

/-- A client config, with the peer and the protocol offer it was built for. -/
structure ClientConfig where
  builtFor : PeerSpec
  versions : HttpVersions
deriving DecidableEq

/-- The key of the config cache. -/
abbrev ConfigKey := TlsIdentity × HttpVersions

/-- Equality of config keys, by the identity's own. -/
def ConfigKey.same (k l : ConfigKey) : Bool := k.1.same l.1 && k.2 == l.2

/-- How far a dial is: before the config cache was asked, while a config is built, and with the config
it dials with, none over plain TCP. -/
inductive Stage where
  | started
  | building
  | configured (cfg : Option ClientConfig)
deriving DecidableEq

/-- A `connect` that found no pooled connection; the caller lends it the peer. -/
structure Dial where
  peer : PeerSpec
  key : PoolKey
  stage : Stage
deriving DecidableEq

/-- `HyperSession`, with the peer it was obtained for. -/
structure Session where
  connection : Connection
  key : PoolKey
  peer : PeerSpec
deriving DecidableEq

structure State where
  /-- Strong handles held outside of peers. -/
  owned : List Handle
  peers : List PeerSpec
  dials : List Dial
  sessions : List Session
  pool : Pool
  cache : List (ConfigKey × ClientConfig)
  allocations : Nat
  connections : Nat

namespace State

/-- `HyperConnector::new`, in a process without peers. -/
def new (capacity : Nat) : State where
  owned := []
  peers := []
  dials := []
  sessions := []
  pool := Pool.new capacity
  cache := []
  allocations := 0
  connections := 0

variable (s : State)

/-- The strong handles. A dial borrows its peer, which therefore stays. -/
def strong : List Handle := s.owned ++ s.peers.flatMap PeerSpec.handles ++ s.dials.flatMap fun d => d.peer.handles

/-- The weak handles: those of the pool, of the keys in use and of the config cache. -/
def weak : List Handle :=
  s.pool.handles ++ s.dials.flatMap (fun d => d.key.handles) ++ s.sessions.flatMap (fun x => x.key.handles) ++
    s.cache.flatMap fun e => e.1.1.handles

def handles : List Handle := s.strong ++ s.weak

/-! ## Steps -/

/-- Material allocated at an address without a handle on it. -/
def allocate (address : Nat) : Option State :=
  if address ≠ 0 ∧ ∀ h ∈ s.handles, h.address ≠ address then
    some { s with owned := { address, id := s.allocations } :: s.owned, allocations := s.allocations + 1 }
  else none

/-- Another strong handle on material that has one. -/
def keep (handle : Handle) : Option State :=
  if handle ∈ s.strong then some { s with owned := handle :: s.owned } else none

def free (handle : Handle) : State := { s with owned := s.owned.erase handle }

/-- A peer over material that has strong handles. -/
def create (peer : PeerSpec) : Option State :=
  if peer.handles ⊆ s.strong then some { s with peers := s.peers ++ [peer] } else none

def discard (i : Nat) : State := { s with peers := s.peers.eraseIdx i }

/-- `connect`, up to the dial. -/
def connect (i : Nat) (usable expired : Connection → Bool) : Option State :=
  s.peers[i]?.map fun peer =>
    let key := PoolKey.new peer
    match s.pool.checkout usable expired key with
    | (some connection, pool) => { s with pool, sessions := s.sessions ++ [{ connection, key, peer }] }
    | (none, pool) => { s with pool, dials := s.dials ++ [{ peer, key, stage := .started }] }

/-- The key `client_config` asks the cache with. -/
def configKey (peer : PeerSpec) : ConfigKey := (TlsIdentity.of peer, HttpVersions.ofSetting peer.httpVersion)

/-- The first half of `client_config`; a plain peer needs no config. -/
def lookup (d : Nat) : Option State :=
  s.dials[d]?.bind fun dial =>
    match dial.stage with
    | .started =>
      let stage : Stage :=
        if dial.peer.tls then
          match get? ConfigKey.same s.cache (configKey dial.peer) with
          | some cfg => .configured (some cfg)
          | none => .building
        else .configured none
      some { s with dials := s.dials.set d { dial with stage } }
    | _ => none

/-- The second half of `client_config`: configs whose material is gone leave the cache, and a config
another caller has put there meanwhile wins. The build may fail, and the dial with it. -/
def build (d : Nat) (succeeds : Bool) : Option State :=
  s.dials[d]?.bind fun dial =>
    match dial.stage with
    | .building =>
      if succeeds then
        let key := configKey dial.peer
        let built : ClientConfig := { builtFor := dial.peer, versions := key.2 }
        let cache := s.cache.filter fun e => e.1.1.isLive s.strong
        match get? ConfigKey.same cache key with
        | some cfg =>
          some { s with cache, dials := s.dials.set d { dial with stage := .configured (some cfg) } }
        | none =>
          some { s with
            cache := cache ++ [(key, built)]
            dials := s.dials.set d { dial with stage := .configured (some built) } }
      else some { s with dials := s.dials.eraseIdx d }
    | _ => none

/-- The connection is up, over the protocol the handshake chose, and shared if it can be. -/
def established (d : Nat) (protocol : Protocol) (usable : Connection → Bool) : Option State :=
  s.dials[d]?.bind fun dial =>
    match dial.stage with
    | .configured _ =>
      let connection : Connection := { id := s.connections, protocol, dialedFor := dial.peer }
      some { s with
        connections := s.connections + 1
        dials := s.dials.eraseIdx d
        sessions := s.sessions ++ [{ connection, key := dial.key, peer := dial.peer }]
        pool := match connection.share with
          | some shared => s.pool.put usable dial.key shared
          | none => s.pool }
    | _ => none

/-- A dial that failed, ran out of time or was given up. -/
def cancel (d : Nat) : State := { s with dials := s.dials.eraseIdx d }

/-- `release`; `reusable` when `into_reusable` hands the connection back. -/
def release (j : Nat) (reusable : Bool) (usable : Connection → Bool) : Option State :=
  s.sessions[j]?.map fun session =>
    { s with
      sessions := s.sessions.eraseIdx j
      pool := if reusable then s.pool.put usable session.key session.connection else s.pool }

end State

inductive Event where
  | allocate (address : Nat)
  | keep (handle : Handle)
  | free (handle : Handle)
  | create (peer : PeerSpec)
  | discard (peer : Nat)
  | connect (peer : Nat) (usable expired : Connection → Bool)
  | lookup (dial : Nat)
  | build (dial : Nat) (succeeds : Bool)
  | established (dial : Nat) (protocol : Protocol) (usable : Connection → Bool)
  | cancel (dial : Nat)
  | release (session : Nat) (reusable : Bool) (usable : Connection → Bool)

def step (s : State) : Event → Option State
  | .allocate address => s.allocate address
  | .keep handle => s.keep handle
  | .free handle => some (s.free handle)
  | .create peer => s.create peer
  | .discard i => some (s.discard i)
  | .connect i usable expired => s.connect i usable expired
  | .lookup d => s.lookup d
  | .build d succeeds => s.build d succeeds
  | .established d protocol usable => s.established d protocol usable
  | .cancel d => some (s.cancel d)
  | .release j reusable usable => s.release j reusable usable

/-! ## The invariant -/

/-- A config that was built from the material of the peer it is used for. -/
structure ConfigFor (peer : PeerSpec) (cfg : ClientConfig) : Prop where
  material : SameMaterial cfg.builtFor peer
  versions : cfg.versions = HttpVersions.ofSetting peer.httpVersion

/-- A dial under the key of its peer, with a config for it. -/
structure Dial.Ok (hs : List Handle) (d : Dial) : Prop where
  handles : d.peer.handles ⊆ hs
  key : d.key = new d.peer
  config : ∀ cfg, d.stage = .configured (some cfg) → ConfigFor d.peer cfg
  building : d.stage = .building → d.peer.tls = true

/-- A session under the key of its peer, on a connection dialed for a peer with that key. -/
structure Session.Ok (hs : List Handle) (x : Session) : Prop where
  handles : x.key.handles ⊆ hs
  key : x.key = new x.peer
  dialedFor : new x.connection.dialedFor = x.key

/-- A config under the key it was built for. -/
structure CacheOk (hs : List Handle) (e : ConfigKey × ClientConfig) : Prop where
  handles : e.1.1.handles ⊆ hs
  tls : e.2.builtFor.tls = true
  key : e.1 = (TlsIdentity.of e.2.builtFor, e.2.versions)

/-- What holds in a state all of whose handles are among the ones given. -/
structure State.Ok (hs : List Handle) (s : State) : Prop where
  owned : s.owned ⊆ hs
  peers : ∀ p ∈ s.peers, p.handles ⊆ hs
  dials : ∀ d ∈ s.dials, d.Ok hs
  sessions : ∀ x ∈ s.sessions, x.Ok hs
  cache : ∀ e ∈ s.cache, CacheOk hs e
  pool : s.pool.Ok
  poolHandles : s.pool.handles ⊆ hs

theorem PoolKey.handles_new_subset (peer : PeerSpec) : (PoolKey.new peer).handles ⊆ peer.handles :=
  TlsIdentity.handles_of_subset peer

theorem Dial.Ok.keyHandles {hs : List Handle} {d : Dial} (h : d.Ok hs) : d.key.handles ⊆ hs := by
  rw [h.key]
  exact fun _ hx => h.handles (handles_new_subset d.peer hx)

namespace State

variable {hs : List Handle} {s t : State}

theorem ok_new (capacity : Nat) : Ok [] (new capacity) where
  owned := by simp [new]
  peers := by simp [new]
  dials := by simp [new]
  sessions := by simp [new]
  cache := by simp [new]
  pool := Pool.ok_new capacity
  poolHandles := by simp [new, Pool.new, Pool.handles]

theorem handles_subset_iff : s.handles ⊆ hs ↔
    ((s.owned ⊆ hs ∧ ∀ p ∈ s.peers, p.handles ⊆ hs) ∧ ∀ d ∈ s.dials, d.peer.handles ⊆ hs) ∧
    ((s.pool.handles ⊆ hs ∧ ∀ d ∈ s.dials, d.key.handles ⊆ hs) ∧ ∀ x ∈ s.sessions, x.key.handles ⊆ hs) ∧
    ∀ e ∈ s.cache, e.1.1.handles ⊆ hs := by
  simp only [handles, strong, weak, append_subset, Handle.flatMap_subset]

theorem Ok.handles (h : Ok hs s) : s.handles ⊆ hs :=
  handles_subset_iff.2 ⟨⟨⟨h.owned, h.peers⟩, fun d hd => (h.dials d hd).handles⟩,
    ⟨⟨h.poolHandles, fun d hd => (h.dials d hd).keyHandles⟩, fun x hx => (h.sessions x hx).handles⟩,
    fun e he => (h.cache e he).handles⟩

theorem Ok.strong (h : Ok hs s) : s.strong ⊆ hs := fun _ hx => h.handles (mem_append_left _ hx)

/-- The handles in question can be other ones, as long as the state's are among them. -/
theorem Ok.of_handles {hs' : List Handle} (h : Ok hs s) (hsub : s.handles ⊆ hs') : Ok hs' s := by
  obtain ⟨⟨⟨howned, hpeers⟩, hdials⟩, ⟨⟨hpool, -⟩, hsessions⟩, hcache⟩ := handles_subset_iff.1 hsub
  exact {
    owned := howned
    peers := hpeers
    dials := fun d hd => { h.dials d hd with handles := hdials d hd }
    sessions := fun x hx => { h.sessions x hx with handles := hsessions x hx }
    cache := fun e he => { h.cache e he with handles := hcache e he }
    pool := h.pool
    poolHandles := hpool }

/-! ### Each step keeps it -/

theorem Ok.allocate (h : Ok s.handles s) (hd : Handle.Distinct s.handles) {address : Nat}
    (hstep : s.allocate address = some t) : Handle.Distinct t.handles ∧ Ok t.handles t := by
  unfold State.allocate at hstep
  split at hstep
  · rename_i hfree
    cases hstep
    have hnew : Handle.Distinct (⟨address, s.allocations⟩ :: s.handles) := hd.cons hfree.1 hfree.2
    have hok := h.of_handles (subset_cons_self ⟨address, s.allocations⟩ s.handles)
    have hok' : Ok (⟨address, s.allocations⟩ :: s.handles)
        { s with owned := ⟨address, s.allocations⟩ :: s.owned, allocations := s.allocations + 1 } :=
      { hok with owned := cons_subset.2 ⟨.head _, hok.owned⟩ }
    exact ⟨hnew.mono hok'.handles, hok'.of_handles (Subset.refl _)⟩
  · cases hstep

theorem Ok.keep (h : Ok hs s) {handle : Handle} (hstep : s.keep handle = some t) : Ok hs t := by
  unfold State.keep at hstep
  split at hstep
  · rename_i hmem
    cases hstep
    exact { h with owned := cons_subset.2 ⟨h.strong hmem, h.owned⟩ }
  · cases hstep

theorem Ok.free (h : Ok hs s) (handle : Handle) : Ok hs (s.free handle) :=
  { h with owned := fun _ hx => h.owned (mem_of_mem_erase hx) }

theorem Ok.create (h : Ok hs s) {peer : PeerSpec} (hstep : s.create peer = some t) : Ok hs t := by
  unfold State.create at hstep
  split at hstep
  · rename_i hsub
    cases hstep
    refine { h with peers := fun p hp => ?_ }
    rcases mem_append.1 hp with hold | hnew
    · exact h.peers p hold
    · obtain rfl := mem_singleton.1 hnew
      exact fun _ hx => h.strong (hsub hx)
  · cases hstep

theorem Ok.discard (h : Ok hs s) (i : Nat) : Ok hs (s.discard i) :=
  { h with peers := fun p hp => h.peers p (mem_of_mem_eraseIdx hp) }

theorem Ok.cancel (h : Ok hs s) (d : Nat) : Ok hs (s.cancel d) :=
  { h with dials := fun x hx => h.dials x (mem_of_mem_eraseIdx hx) }

variable {usable : Connection → Bool} {d : Nat}

theorem Ok.connect (h : Ok hs s) (hd : Handle.Distinct hs) (hnext : s.pool.next ≤ t.pool.next) {i : Nat}
    {expired : Connection → Bool} (hstep : s.connect i usable expired = some t) : Ok hs t := by
  obtain ⟨peer, hpeer, rfl⟩ := map_eq_some_iff.1 hstep
  have hhandles : peer.handles ⊆ hs := h.peers peer (mem_of_getElem? hpeer)
  have hkey : (PoolKey.new peer).handles ⊆ hs := fun _ hx => hhandles (PoolKey.handles_new_subset peer hx)
  cases hcheckout : s.pool.checkout usable expired (PoolKey.new peer) with
  | mk found pool =>
    have hnext : s.pool.next ≤ pool.next := by cases found <;> simpa only [hcheckout] using hnext
    obtain ⟨hok, hpool, hfound⟩ := Pool.checkout_spec hd h.poolHandles hkey usable expired hnext h.pool hcheckout
    have h' : Ok hs { s with pool } := { h with pool := hok, poolHandles := hpool }
    cases found with
    | some connection =>
      simp only [hcheckout]
      refine { h' with sessions := fun x hx => ?_ }
      rcases mem_append.1 hx with hold | hnew
      · exact h.sessions x hold
      · obtain rfl := mem_singleton.1 hnew
        exact ⟨hkey, rfl, hfound connection rfl⟩
    | none =>
      simp only [hcheckout]
      refine { h' with dials := fun d hd => ?_ }
      rcases mem_append.1 hd with hold | hnew
      · exact h.dials d hold
      · obtain rfl := mem_singleton.1 hnew
        exact ⟨hhandles, rfl, by simp, by simp⟩

theorem Ok.setDial (h : Ok hs s) {dial : Dial} (hdial : s.dials[d]? = some dial) {stage : Stage}
    (hconfig : ∀ cfg, stage = .configured (some cfg) → ConfigFor dial.peer cfg)
    (hbuilding : stage = .building → dial.peer.tls = true) : Ok hs { s with dials := s.dials.set d { dial with stage } } := by
  refine { h with dials := fun x hx => ?_ }
  rcases mem_or_eq_of_mem_set hx with hold | rfl
  · exact h.dials x hold
  · exact { h.dials dial (mem_of_getElem? hdial) with config := hconfig, building := hbuilding }

/-- What the cache has under the key of a peer was built from that peer's material. -/
theorem configFor_of_get? (hd : Handle.Distinct hs) {cache : List (ConfigKey × ClientConfig)}
    (hcache : ∀ e ∈ cache, CacheOk hs e) {peer : PeerSpec} (hpeer : peer.handles ⊆ hs) (htls : peer.tls = true)
    {cfg : ClientConfig} (h : get? ConfigKey.same cache (configKey peer) = some cfg) : ConfigFor peer cfg := by
  obtain ⟨key, hmem, hsame⟩ := mem_of_get? h
  simp only [ConfigKey.same, Bool.and_eq_true, beq_iff_eq] at hsame
  have hok := hcache _ hmem
  have hidentity := TlsIdentity.eq_of_same hd hok.handles
    (fun _ hx => hpeer (TlsIdentity.handles_of_subset peer hx)) hsame.1
  have hkey := Prod.ext_iff.1 hok.key
  exact ⟨TlsIdentity.sameMaterial_of_eq hok.tls htls (hkey.1.symm.trans hidentity), hkey.2.symm.trans hsame.2⟩

section

variable (h : Ok hs s) (hd : Handle.Distinct hs)
include h hd

theorem Ok.lookup (hstep : s.lookup d = some t) : Ok hs t := by
  obtain ⟨dial, hdial, hstep⟩ := bind_eq_some_iff.1 hstep
  split at hstep
  · cases hstep
    have hhandles := (h.dials dial (mem_of_getElem? hdial)).handles
    cases htls : dial.peer.tls with
    | false => exact h.setDial hdial (by simp) (by simp)
    | true =>
      rw [if_pos rfl]
      cases hget : get? ConfigKey.same s.cache (configKey dial.peer) with
      | none => exact h.setDial hdial (by simp) (fun _ => htls)
      | some cfg =>
        refine h.setDial hdial (fun cfg' heq => ?_) (by simp)
        cases heq
        exact configFor_of_get? hd h.cache hhandles htls hget
  · cases hstep

theorem Ok.build {succeeds : Bool} (hstep : s.build d succeeds = some t) : Ok hs t := by
  obtain ⟨dial, hdial, hstep⟩ := bind_eq_some_iff.1 hstep
  split at hstep
  · rename_i hstage
    have hok := h.dials dial (mem_of_getElem? hdial)
    have htls := hok.building hstage
    split at hstep
    · have hcache : ∀ e ∈ s.cache.filter fun e => e.1.1.isLive s.strong, CacheOk hs e :=
        fun e he => h.cache e (mem_of_mem_filter he)
      dsimp only at hstep
      split at hstep
      · rename_i cfg hget
        cases hstep
        have h' : Ok hs { s with cache := s.cache.filter fun e => e.1.1.isLive s.strong } := { h with cache := hcache }
        refine h'.setDial hdial (fun cfg' heq => ?_) nofun
        cases heq
        exact configFor_of_get? hd hcache hok.handles htls hget
      · cases hstep
        have hbuilt : CacheOk hs (configKey dial.peer, ⟨dial.peer, (configKey dial.peer).2⟩) :=
          ⟨fun _ hx => hok.handles (TlsIdentity.handles_of_subset dial.peer hx), htls, rfl⟩
        have h' : Ok hs { s with
            cache := (s.cache.filter fun e => e.1.1.isLive s.strong) ++
              [(configKey dial.peer, ⟨dial.peer, (configKey dial.peer).2⟩)] } := by
          refine { h with cache := fun e he => ?_ }
          rcases mem_append.1 he with hold | hnew
          · exact hcache e hold
          · exact mem_singleton.1 hnew ▸ hbuilt
        refine h'.setDial hdial (fun cfg' heq => ?_) nofun
        cases heq
        exact ⟨⟨rfl, rfl, rfl, rfl⟩, rfl⟩
    · cases hstep
      exact h.cancel d
  · cases hstep

theorem Ok.established (hnext : s.pool.next ≤ t.pool.next) {protocol : Protocol}
    (hstep : s.established d protocol usable = some t) : Ok hs t := by
  obtain ⟨dial, hdial, hstep⟩ := bind_eq_some_iff.1 hstep
  split at hstep
  · cases hstep
    have hok := h.dials dial (mem_of_getElem? hdial)
    have hsessions : ∀ x ∈ s.sessions ++ [⟨⟨s.connections, protocol, dial.peer⟩, dial.key, dial.peer⟩], Session.Ok hs x := by
      intro x hx
      rcases mem_append.1 hx with hold | hnew
      · exact h.sessions x hold
      · obtain rfl := mem_singleton.1 hnew
        exact ⟨hok.keyHandles, hok.key, hok.key.symm⟩
    have hleft : ∀ x ∈ s.dials.eraseIdx d, x.Ok hs := fun x hx => h.dials x (mem_of_mem_eraseIdx hx)
    cases protocol with
    | http1 => exact { h with dials := hleft, sessions := hsessions }
    | http2 =>
      have hkey : dial.key = PoolKey.new (⟨s.connections, .http2, dial.peer⟩ : Connection).dialedFor := hok.key
      obtain ⟨hpool, hpoolHandles⟩ := Pool.put_spec hd h.poolHandles hok.keyHandles usable hkey hnext h.pool
      exact { h with dials := hleft, sessions := hsessions, pool := hpool, poolHandles := hpoolHandles }
  · cases hstep

theorem Ok.release (hnext : s.pool.next ≤ t.pool.next) {j : Nat} {reusable : Bool}
    (hstep : s.release j reusable usable = some t) : Ok hs t := by
  obtain ⟨session, hsession, rfl⟩ := map_eq_some_iff.1 hstep
  have hok := h.sessions session (mem_of_getElem? hsession)
  have hleft : ∀ x ∈ s.sessions.eraseIdx j, x.Ok hs := fun x hx => h.sessions x (mem_of_mem_eraseIdx hx)
  cases reusable with
  | false => exact { h with sessions := hleft }
  | true =>
    obtain ⟨hpool, hpoolHandles⟩ := Pool.put_spec hd h.poolHandles hok.handles usable hok.dialedFor.symm hnext h.pool
    exact { h with sessions := hleft, pool := hpool, poolHandles := hpoolHandles }

end

end State

/-- A step keeps the invariant unless the pool's order numbers start over in it. -/
theorem step_ok {s t : State} {e : Event} (hd : Handle.Distinct s.handles) (h : State.Ok s.handles s)
    (hnext : s.pool.next ≤ t.pool.next) (hstep : step s e = some t) :
    Handle.Distinct t.handles ∧ State.Ok t.handles t := by
  -- but for an allocation no step makes a handle on material that had none
  have done (hok : State.Ok s.handles t) : Handle.Distinct t.handles ∧ State.Ok t.handles t :=
    ⟨hd.mono hok.handles, hok.of_handles (Subset.refl _)⟩
  cases e with
  | allocate address => exact h.allocate hd hstep
  | keep handle => exact done (h.keep hstep)
  | free handle => exact done (some.inj hstep ▸ h.free handle)
  | create peer => exact done (h.create hstep)
  | discard i => exact done (some.inj hstep ▸ h.discard i)
  | connect i usable expired => exact done (h.connect hd hnext hstep)
  | lookup d => exact done (h.lookup hd hstep)
  | build d succeeds => exact done (h.build hd hstep)
  | established d protocol usable => exact done (h.established hd hnext hstep)
  | cancel d => exact done (some.inj hstep ▸ h.cancel d)
  | release j reusable usable => exact done (h.release hd hnext hstep)

/-! ## Trust -/

/-- Every session runs on a connection that was dialed for a peer its own may share one with, and every
dial uses a config built from the material of its peer. -/
structure State.Separated (s : State) : Prop where
  sessions : ∀ x ∈ s.sessions, SameTrust x.connection.dialedFor x.peer
  configs : ∀ d ∈ s.dials, ∀ cfg, d.stage = .configured (some cfg) → ConfigFor d.peer cfg

/-- The event does not start the pool's order numbers over, as putting an entry in does once in `2 ^ 64` times. -/
def Numbered (s : State) (e : Event) : Prop := ∀ t ∈ step s e, s.pool.next ≤ t.pool.next

instance (s : State) (e : Event) : Decidable (Numbered s e) :=
  inferInstanceAs (Decidable (∀ t ∈ step s e, s.pool.next ≤ t.pool.next))

/-- Connections and configs do not cross trust in any run whose order numbers do not start over. -/
theorem separated_of_numbered {capacity : Nat} {events : List Event} {s : State}
    (hnumbered : Along step Numbered (State.new capacity) events)
    (hrun : run step (State.new capacity) events = some s) : s.Separated := by
  have hinv := run_invariant (I := fun s => Handle.Distinct s.handles ∧ State.Ok s.handles s) (G := Numbered)
    (fun _ _ t hI hnumbered hstep => step_ok hI.1 hI.2 (hnumbered t hstep) hstep)
    ⟨Handle.Distinct.nil, State.ok_new capacity⟩ hnumbered hrun
  constructor
  · intro x hx
    have hok := hinv.2.sessions x hx
    exact sameTrust_of_new_eq (hok.dialedFor.trans hok.key)
  · exact fun d hd => (hinv.2.dials d hd).config

/-- A peer over TLS with a cluster CA. -/
private def verifiedPeer : PeerSpec where
  address := ⟨1, 443⟩
  httpVersion := .auto
  poolGroup := 0
  sni := "api"
  tls := true
  tlsConfig := some { ca := some ⟨8, 0⟩, clientCert := none, verify := true }
  trustAnchors := none
  plain := nofun

/-- The peer's connection is dialed with a new config, pooled and used again. -/
private def dialedThenReused : List Event :=
  [.allocate 8, .create verifiedPeer, .connect 0 (fun _ => true) (fun _ => false), .lookup 0, .build 0 true,
    .established 0 .http1 (fun _ => true), .release 0 true (fun _ => true), .free ⟨8, 0⟩,
    .connect 0 (fun _ => true) (fun _ => false)]

theorem dialedThenReused_separated : ∃ s, run step (State.new 1) dialedThenReused = some s ∧
    s.sessions.map (fun x => x.connection.id) = [0] ∧ s.Separated := by
  have hnumbered : Along step Numbered (State.new 1) dialedThenReused := by decide
  exact ⟨_, rfl, rfl, separated_of_numbered hnumbered rfl⟩

/-! ### Order numbers that start over -/

/-- A peer over plain TCP at an address. -/
private def plainPeer (ip : Nat) : PeerSpec where
  address := ⟨ip, 80⟩
  httpVersion := .h1
  poolGroup := 0
  sni := ""
  tls := false
  tlsConfig := none
  trustAnchors := none
  plain := fun _ => rfl

/-- A session with the second peer while the first one's connection is pooled. -/
private def secondInUse (next : Nat) : State where
  owned := []
  peers := [plainPeer 1, plainPeer 2]
  dials := []
  sessions := [⟨⟨1, .http1, plainPeer 2⟩, new (plainPeer 2), plainPeer 2⟩]
  pool := {
    capacity := 2
    entries := [(0, ⟨⟨0, .http1, plainPeer 1⟩, new (plainPeer 1)⟩)]
    keys := [(new (plainPeer 1), [0])]
    next }
  cache := []
  allocations := 0
  connections := 2

/-- Both connections pooled, the second one under the order number given. -/
private def bothPooled (order : Nat) : State :=
  { secondInUse 0 with
    sessions := []
    pool := {
      capacity := 2
      entries := [(0, ⟨⟨0, .http1, plainPeer 1⟩, new (plainPeer 1)⟩),
        (order, ⟨⟨1, .http1, plainPeer 2⟩, new (plainPeer 2)⟩)]
      keys := [(new (plainPeer 1), [0]), (new (plainPeer 2), [order])]
      next := (order + 1) % 2 ^ 64 } }

private def connectTo (i : Nat) : Event := .connect i (fun _ => true) (fun _ => false)

private def giveBack : Event := .release 0 true fun _ => true

private theorem plainPeer_keys : (new (plainPeer 1)).same (new (plainPeer 2)) = false := rfl

private theorem bothPooled_connect (n : Nat) :
    step (bothPooled (n + 1)) (connectTo 1) = some (secondInUse ((n + 2) % 2 ^ 64)) := by
  simp [step, connectTo, State.connect, bothPooled, secondInUse, Pool.checkout, Pool.checkoutLoop, Pool.takeNewest,
    Pool.setOrders, Pool.entryAt, Pool.removeEntry, Connection.share, get?, remove, plainPeer_keys]

private theorem secondInUse_giveBack (n : Nat) : step (secondInUse (n + 1)) giveBack = some (bothPooled (n + 1)) := by
  simp [step, giveBack, State.release, bothPooled, secondInUse, Pool.put, Pool.push, Pool.evict, get?,
    Praxis.Lib.AssocMap.set, insertAt, plainPeer_keys]

/-- Every session with the second peer gives its connection the next order number. -/
private theorem bothPooled_again : ∀ n, n + 1 < 2 ^ 64 →
    run step (bothPooled 1) (replicate n [connectTo 1, giveBack]).flatten = some (bothPooled (n + 1))
  | 0, _ => rfl
  | n + 1, hn => by
    have hlt : (n + 2) % 2 ^ 64 = n + 1 + 1 := Nat.mod_eq_of_lt hn
    rw [replicate_succ', flatten_concat]
    refine run_append.2 ⟨_, bothPooled_again n (by omega), run_cons.2 ⟨_, bothPooled_connect n, ?_⟩⟩
    rw [hlt]
    exact run_cons.2 ⟨_, secondInUse_giveBack (n + 1), rfl⟩

/-- After `2 ^ 64` returned connections the first peer is served over a connection to the second. -/
theorem orders_start_over : ∃ events s, run step (State.new 2) events = some s ∧ ¬ s.Separated := by
  have hstart : run step (State.new 2) [.create (plainPeer 1), .create (plainPeer 2),
      connectTo 0, .lookup 0, .established 0 .http1 (fun _ => true), giveBack,
      connectTo 1, .lookup 0, .established 0 .http1 (fun _ => true), giveBack] = some (bothPooled 1) := rfl
  have hlast : run step (bothPooled (2 ^ 64 - 2 + 1)) [connectTo 1, giveBack, connectTo 0] =
      run step (secondInUse 0) [giveBack, connectTo 0] := by
    show (step _ _).bind _ = _
    rw [bothPooled_connect]
    rfl
  refine ⟨_, _, run_append.2 ⟨_, hstart, run_append.2 ⟨_, bothPooled_again (2 ^ 64 - 2) (by omega),
    hlast.trans rfl⟩⟩, fun h => ?_⟩
  exact absurd (h.sessions _ (.head _)).address (by decide)

end Praxis.Egress
