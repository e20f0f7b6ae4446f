/-
The probes of the three hash strategies. Each walks its own table or ring of endpoint positions and
stops once it has seen every endpoint; what it finds is what a scan of all slots finds.
-/
import Praxis.Balancing.MaglevTable
import Praxis.Balancing.RingHash

namespace Praxis.Balancing

open List

/-- The first endpoint from `start` on that is accepted, among the owners of all slots. -/
def plainScan (endpoints : List WeightedEndpoint) (accept : WeightedEndpoint → Bool) (ring : List Nat) (start : Nat) :
    Option String :=
  (((slotsFrom ring start).filterMap (endpoints[·]?)).find? accept).map WeightedEndpoint.address

theorem probe_eq_plainScan {endpoints : List WeightedEndpoint} {ring : List Nat}
    (hring : ∀ owner ∈ ring, owner < endpoints.length) (accept : WeightedEndpoint → Bool) (start : Nat) :
    probe endpoints accept ring start = plainScan endpoints accept ring start := by
  unfold plainScan
  rw [probe_eq hring, slotsFrom_eq]

/-! ## Maglev -/

structure Maglev where
  endpoints : List WeightedEndpoint
  header : Option String
  table : List Nat
  owner_lt : ∀ owner ∈ table, owner < endpoints.length

namespace Maglev

/-- The table, which the loop completes with this fuel. -/
def new (endpoints : List WeightedEndpoint) (header : Option String) (hlength : endpoints.length < 2 ^ 32) : Maglev where
  endpoints := endpoints
  header := header
  table := (buildTable fnv1aSeeded endpoints ((buildReplicas fnv1aSeeded endpoints).length * tableSize)).getD []
  owner_lt := by
    rcases eq_or_ne endpoints [] with rfl | hne
    · rintro owner ⟨⟩
    · obtain ⟨s, -, -, htable, hvalid⟩ := buildTable_numbered hne hlength
        (Nat.le_refl ((buildReplicas fnv1aSeeded endpoints).length * tableSize))
      rw [htable]
      exact hvalid

def probe (m : Maglev) (start : Nat) (excl : List String) (accept : WeightedEndpoint → Bool) : Option String :=
  Balancing.probe m.endpoints (fun ep => !isExcluded ep.address excl && accept ep) m.table start

end Maglev

/-! ## Consistent hash -/

structure ConsistentHash where
  endpoints : List WeightedEndpoint
  header : Option String
  ring : List Nat
  owner_lt : ∀ owner ∈ ring, owner < endpoints.length

namespace ConsistentHash

/-- Each endpoint has as many slots as it weighs. -/
def new (endpoints : List WeightedEndpoint) (header : Option String) : ConsistentHash where
  endpoints := endpoints
  header := header
  ring := endpoints.zipIdx.flatMap fun (ep, i) => replicate ep.weight i
  owner_lt := by
    intro owner howner
    obtain ⟨⟨ep, i⟩, hitem, howner⟩ := mem_flatMap.1 howner
    obtain rfl := eq_of_mem_replicate howner
    simpa using snd_lt_of_mem_zipIdx hitem

def probe (ch : ConsistentHash) (start : Nat) (excl : List String) (accept : WeightedEndpoint → Bool) : Option String :=
  Balancing.probe ch.endpoints (fun ep => !isExcluded ep.address excl && accept ep) ch.ring start

end ConsistentHash

/-- Stopping after the last endpoint loses nothing: each probe returns what the scan of all slots returns. The ring is
the one that is built, by any hash function and any sort. -/
theorem bounded_probe_eq_scan (m : Maglev) (ch : ConsistentHash) (ops : SliceOps) (endpoints : List WeightedEndpoint)
    (header : Option String) (hash : String → Nat) (vnodes start : Nat) (excl : List String)
    (accept : WeightedEndpoint → Bool) (state : ClusterHealthEntry) :
    let fresh := fun (ep : WeightedEndpoint) => !isExcluded ep.address excl
    let rh := RingHash.new ops endpoints header hash vnodes
    m.probe start excl accept = plainScan m.endpoints (fun ep => fresh ep && accept ep) m.table start ∧
    ch.probe start excl accept = plainScan ch.endpoints (fun ep => fresh ep && accept ep) ch.ring start ∧
    rh.healthyProbe start state excl
      = plainScan rh.endpoints (fun ep => fresh ep && state.isAddressHealthy ep.address) (rh.ring.map Prod.snd) start := by
  refine ⟨?_, ?_, ?_⟩
  · exact probe_eq_plainScan m.owner_lt _ _
  · exact probe_eq_plainScan ch.owner_lt _ _
  · exact probe_eq_plainScan (fun _ => owner_lt_of_mem_ring) _ _

/-! ## Retries -/

/-- The endpoints that a request goes to, when each selection excludes those tried before. -/
def retries (pick : List String → Option String) : Nat → List String → List String
  | 0, _ => []
  | n + 1, tried =>
    match pick tried with
    | none => []
    | some addr => addr :: retries pick n (tried ++ [addr])

/-- The accepted endpoints, as the slots from `start` on come to them. -/
def inTurn (endpoints : List WeightedEndpoint) (accept : WeightedEndpoint → Bool) (ring : List Nat) (start : Nat) :
    List String :=
  (((slotsFrom ring start).filterMap (endpoints[·]?)).filter accept).map WeightedEndpoint.address

theorem retries_eq {pick : List String → Option String} {walk : List String}
    (hpick : ∀ tried, pick tried = walk.find? fun addr => !isExcluded addr tried) (n : Nat) (tried : List String) :
    retries pick n tried = ((walk.filter fun addr => !isExcluded addr tried).eraseDups).take n := by
  induction n generalizing tried with
  | zero => rfl
  | succ n ih =>
    rw [retries, hpick, ← head?_filter]
    rcases hleft : walk.filter fun addr => !isExcluded addr tried with _ | ⟨addr, rest⟩
    · rfl
    · have hnext : (walk.filter fun other => !isExcluded other (tried ++ [addr])) = rest.filter (!· == addr) := by
        have hmore : ∀ other, (!isExcluded other (tried ++ [addr])) = (!(other == addr) && !isExcluded other tried) := by
          intro other
          simp [isExcluded, Bool.and_comm, Bool.beq_comm (a := addr)]
        rw [funext hmore, ← filter_filter, hleft, filter_cons_of_neg (by simp)]
      simp only [head?_cons, ih, hnext, eraseDups_cons, take_succ_cons]

theorem retries_probe {endpoints : List WeightedEndpoint} {ring : List Nat}
    (hring : ∀ owner ∈ ring, owner < endpoints.length) (accept : WeightedEndpoint → Bool) (start n : Nat) :
    retries (fun excl => probe endpoints (fun ep => !isExcluded ep.address excl && accept ep) ring start) n [] =
      (inTurn endpoints accept ring start).eraseDups.take n := by
  have hpick : ∀ excl, probe endpoints (fun ep => !isExcluded ep.address excl && accept ep) ring start =
      (inTurn endpoints accept ring start).find? fun addr => !isExcluded addr excl := by
    intro excl
    rw [probe_eq_plainScan hring, plainScan, inTurn, find?_map, find?_filter]
    simp [Bool.and_comm]
  rw [retries_eq hpick]
  simp [isExcluded]

/-- A request that is tried again and again tries every accepted endpoint once, in the order of the slots. -/
theorem retries_in_turn (m : Maglev) (ch : ConsistentHash) (ops : SliceOps) (endpoints : List WeightedEndpoint)
    (header : Option String) (hash : String → Nat) (vnodes start n : Nat) (accept : WeightedEndpoint → Bool)
    (state : ClusterHealthEntry) :
    let rh := RingHash.new ops endpoints header hash vnodes
    retries (m.probe start · accept) n [] = (inTurn m.endpoints accept m.table start).eraseDups.take n ∧
    retries (ch.probe start · accept) n [] = (inTurn ch.endpoints accept ch.ring start).eraseDups.take n ∧
    retries (rh.healthyProbe start state) n [] =
      (inTurn rh.endpoints (fun ep => state.isAddressHealthy ep.address) (rh.ring.map Prod.snd) start).eraseDups.take n := by
  refine ⟨?_, ?_, ?_⟩
  · exact retries_probe m.owner_lt accept start n
  · exact retries_probe ch.owner_lt accept start n
  · exact retries_probe (fun _ => owner_lt_of_mem_ring) _ start n

end Praxis.Balancing
