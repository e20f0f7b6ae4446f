/-
Which upstream a connection was opened for: the peer's address, name and protocol settings, and the
TLS material it is verified with. Material is compared by the address of its allocation, read through
weak handles.
-/
import Praxis.Lib.Handles

namespace Praxis.Egress

open Option

open Praxis.Lib (Handle)

/-! ## Peers -/

structure SocketAddr where
  ip : Nat
  port : Nat
deriving Repr, DecidableEq

inductive UpstreamHttpVersion where
  | h1
  | h2
  | auto
deriving Repr, DecidableEq

inductive HttpVersions where
  | http1
  | http2
  | either
deriving Repr, DecidableEq

/-- `HttpVersions::from` -/
def HttpVersions.ofSetting : UpstreamHttpVersion → HttpVersions
  | .h1 => .http1
  | .h2 => .http2
  | .auto => .either

theorem HttpVersions.ofSetting_injective {a b : UpstreamHttpVersion} (h : ofSetting a = ofSetting b) : a = b := by
  cases a <;> cases b <;> first | rfl | cases h

/-- `CachedClusterTls`: a cluster's CA and client certificate, each shared, and whether it verifies. -/
structure ClusterTls where
  ca : Option Handle
  clientCert : Option Handle
  verify : Bool
deriving Repr, DecidableEq

/-- `PeerSpec`. A peer that is dialed without TLS carries no cluster material: every way to make one
(`new`, `plain`, `from_upstream`) sees to it. -/
structure PeerSpec where
  address : SocketAddr
  httpVersion : UpstreamHttpVersion
  poolGroup : Nat
  sni : String
  tls : Bool
  tlsConfig : Option ClusterTls
  trustAnchors : Option Handle
  plain : tls = false → tlsConfig = none
deriving DecidableEq

namespace PeerSpec

/-- The cluster's CA. -/
def ca (peer : PeerSpec) : Option Handle := peer.tlsConfig.bind ClusterTls.ca

/-- The cluster's client certificate. -/
def clientCert (peer : PeerSpec) : Option Handle := peer.tlsConfig.bind ClusterTls.clientCert

/-- Whether the upstream's certificate is verified. -/
def verify (peer : PeerSpec) : Bool := peer.tlsConfig.all ClusterTls.verify

/-- The trust anchors in effect: the runtime's, where TLS is on and the cluster names no CA. -/
def effectiveAnchors (peer : PeerSpec) : Option Handle :=
  if peer.tls && peer.ca.isNone then peer.trustAnchors else none

/-- The strong handles a peer holds. -/
def handles (peer : PeerSpec) : List Handle := peer.ca.toList ++ peer.clientCert.toList ++ peer.trustAnchors.toList

end PeerSpec

/-- Two peers that are verified with the very same material. -/
structure SameMaterial (p q : PeerSpec) : Prop where
  verify : p.verify = q.verify
  ca : p.ca = q.ca
  clientCert : p.clientCert = q.clientCert
  anchors : p.effectiveAnchors = q.effectiveAnchors

/-- Two peers that may share a connection. -/
structure SameTrust (p q : PeerSpec) : Prop extends SameMaterial p q where
  address : p.address = q.address
  sni : p.sni = q.sni
  tls : p.tls = q.tls
  poolGroup : p.poolGroup = q.poolGroup
  httpVersion : p.httpVersion = q.httpVersion

/-! ## Identities -/

/-- `TlsIdentity`, with weak handles on the material. -/
structure TlsIdentity where
  ca : Option Handle
  clientCert : Option Handle
  trustAnchors : Option Handle
  verify : Bool
deriving Repr, DecidableEq

namespace TlsIdentity

def of (peer : PeerSpec) : TlsIdentity :=
  if peer.tls then
    { ca := peer.ca
      clientCert := peer.clientCert
      trustAnchors := peer.trustAnchors.filter fun _ => peer.ca.isNone
      verify := peer.verify }
  else { ca := none, clientCert := none, trustAnchors := none, verify := false }

/-- `TlsIdentity::parts`: the allocations and the flag an identity compares by. -/
def parts (i : TlsIdentity) : Nat × Nat × Nat × Bool :=
  (Handle.allocation i.ca, Handle.allocation i.clientCert, Handle.allocation i.trustAnchors, i.verify)

/-- `PartialEq for TlsIdentity` -/
def same (i j : TlsIdentity) : Bool := i.parts == j.parts

/-- The weak handles an identity holds. -/
def handles (i : TlsIdentity) : List Handle := i.ca.toList ++ i.clientCert.toList ++ i.trustAnchors.toList

/-- `TlsIdentity::is_live`: every piece has a strong handle left. -/
def isLive (strong : List Handle) (i : TlsIdentity) : Bool := i.handles.all fun h => strong.contains h

@[simp] theorem same_self (i : TlsIdentity) : i.same i = true := by simp [same]

theorem handles_of_subset (peer : PeerSpec) : (of peer).handles ⊆ peer.handles := by
  unfold of
  split
  · intro h hh
    simp only [handles, PeerSpec.handles, List.mem_append, mem_toList] at hh ⊢
    rcases hh with (hca | hcert) | hanchors
    · exact .inl (.inl hca)
    · exact .inl (.inr hcert)
    · exact .inr (mem_filter_iff.1 hanchors).1
  · intro h hh
    simp [handles] at hh

/-- Identities held at one time that compare equal name the same material. -/
theorem eq_of_same {hs : List Handle} (hd : Handle.Distinct hs) {i j : TlsIdentity} (hi : i.handles ⊆ hs)
    (hj : j.handles ⊆ hs) (h : i.same j = true) : i = j := by
  have hmem : ∀ (k : TlsIdentity), k.handles ⊆ hs →
      (∀ x ∈ k.ca, x ∈ hs) ∧ (∀ x ∈ k.clientCert, x ∈ hs) ∧ ∀ x ∈ k.trustAnchors, x ∈ hs := by
    intro k hk
    simp only [handles, List.append_subset] at hk
    exact ⟨fun x hx => hk.1.1 (mem_toList.2 hx), fun x hx => hk.1.2 (mem_toList.2 hx),
      fun x hx => hk.2 (mem_toList.2 hx)⟩
  obtain ⟨hica, hicert, hianchors⟩ := hmem i hi
  obtain ⟨hjca, hjcert, hjanchors⟩ := hmem j hj
  simp only [same, parts, beq_iff_eq, Prod.mk.injEq] at h
  obtain ⟨hca, hcert, hanchors, hverify⟩ := h
  have hca := hd.eq_of_allocation hica hjca hca
  have hcert := hd.eq_of_allocation hicert hjcert hcert
  have hanchors := hd.eq_of_allocation hianchors hjanchors hanchors
  obtain ⟨_, _, _, _⟩ := i
  obtain ⟨_, _, _, _⟩ := j
  simp_all

theorem sameMaterial_of_eq {p q : PeerSpec} (hp : p.tls = true) (hq : q.tls = true) (h : of p = of q) : SameMaterial p q := by
  simp only [of, hp, hq, if_true, mk.injEq] at h
  obtain ⟨hca, hcert, hanchors, hverify⟩ := h
  refine ⟨hverify, hca, hcert, ?_⟩
  rw [hca] at hanchors
  simp only [PeerSpec.effectiveAnchors, hp, hq, hca, Bool.true_and]
  cases hnone : q.ca.isNone with
  | true => cases hpa : p.trustAnchors <;> cases hqa : q.trustAnchors <;> simp_all [Option.filter]
  | false => simp

end TlsIdentity

/-! ## Keys -/

structure PoolKey where
  address : SocketAddr
  poolGroup : Nat
  sni : String
  tls : Bool
  tlsIdentity : TlsIdentity
  versions : HttpVersions
deriving Repr, DecidableEq

namespace PoolKey

def new (peer : PeerSpec) : PoolKey where
  address := peer.address
  poolGroup := peer.poolGroup
  sni := peer.sni
  tls := peer.tls
  tlsIdentity := TlsIdentity.of peer
  versions := HttpVersions.ofSetting peer.httpVersion

/-- Equality of keys, by the identity's own. -/
def same (k l : PoolKey) : Bool :=
  k.address == l.address && k.poolGroup == l.poolGroup && k.sni == l.sni && k.tls == l.tls &&
    k.tlsIdentity.same l.tlsIdentity && k.versions == l.versions

def handles (k : PoolKey) : List Handle := k.tlsIdentity.handles

@[simp] theorem same_self (k : PoolKey) : k.same k = true := by simp [same]

/-- Keys held at one time that compare equal are equal. -/
theorem eq_of_same {hs : List Handle} (hd : Handle.Distinct hs) {k l : PoolKey} (hk : k.handles ⊆ hs)
    (hl : l.handles ⊆ hs) (h : k.same l = true) : k = l := by
  simp only [same, Bool.and_eq_true, beq_iff_eq] at h
  obtain ⟨⟨⟨⟨⟨haddress, hgroup⟩, hsni⟩, htls⟩, hidentity⟩, hversions⟩ := h
  have hidentity := TlsIdentity.eq_of_same hd hk hl hidentity
  obtain ⟨_, _, _, _, _, _⟩ := k
  obtain ⟨_, _, _, _, _, _⟩ := l
  simp_all

theorem sameTrust_of_new_eq {p q : PeerSpec} (h : new p = new q) : SameTrust p q := by
  simp only [new, mk.injEq] at h
  obtain ⟨haddress, hgroup, hsni, htls, hidentity, hversions⟩ := h
  have hversion := HttpVersions.ofSetting_injective hversions
  suffices hmaterial : SameMaterial p q from ⟨hmaterial, haddress, hsni, htls, hgroup, hversion⟩
  cases hp : p.tls with
  | true => exact TlsIdentity.sameMaterial_of_eq hp (htls.symm.trans hp) hidentity
  | false =>
    have hq : q.tls = false := htls.symm.trans hp
    have hp' := p.plain hp
    have hq' := q.plain hq
    exact ⟨by simp [PeerSpec.verify, hp', hq'], by simp [PeerSpec.ca, hp', hq'],
      by simp [PeerSpec.clientCert, hp', hq'], by simp [PeerSpec.effectiveAnchors, hp, hq]⟩

end PoolKey

end Praxis.Egress
