/-
Ring hash. Each endpoint is placed on a ring by the hashes of its virtual nodes and a key goes to
the first endpoint it meets that may be picked. Which endpoint that is does not depend on those
that may not: it is the choice on the ring without them, and so taking an endpoint away moves only
the keys that it had. Hash values are numbers, by any hash function.
-/
import Praxis.Balancing.Probe
import Praxis.Lib.Ring

namespace Praxis.Balancing

open WeightedEndpoint Prod List Option Praxis.Lib

/-- The sort and the search of slices, by what is documented of them. Entries with the same key may be sorted in any
order, and any of them may be found. -/
structure SliceOps where
  sortUnstableByKey : List (Nat × Nat) → List (Nat × Nat)
  binarySearchByKey : List (Nat × Nat) → Nat → Nat
  sort_perm : ∀ l, (sortUnstableByKey l).Perm l
  sort_sorted : ∀ l, (sortUnstableByKey l).Pairwise fun a b => a.1 ≤ b.1
  search_located : ∀ l key, l.Pairwise (fun a b => a.1 ≤ b.1) → Located l key (binarySearchByKey l key)

/-- The virtual nodes of all endpoints, before they are sorted. The count saturates at 32 bits. -/
def ringEntries (hash : String → Nat) (eps : List WeightedEndpoint) (vnodesPerWeight : Nat) : List (Nat × Nat) :=
  eps.zipIdx.flatMap fun (ep, idx) =>
    (range (min (ep.weight * vnodesPerWeight) (2 ^ 32 - 1))).map fun vnode =>
      (hash (ep.address ++ "#" ++ toString vnode), idx)

def buildRing (ops : SliceOps) (hash : String → Nat) (eps : List WeightedEndpoint) (vnodesPerWeight : Nat) :
    List (Nat × Nat) :=
  ops.sortUnstableByKey (ringEntries hash eps vnodesPerWeight)

/-- A ring with the hash function it was built with. -/
structure RingHash where
  endpoints : List WeightedEndpoint
  header : Option String
  ring : List (Nat × Nat)
  hash : String → Nat

namespace RingHash

def new (ops : SliceOps) (eps : List WeightedEndpoint) (header : Option String) (hash : String → Nat)
    (virtualNodesPerWeight : Nat) : RingHash where
  endpoints := eps
  header := header
  ring := buildRing ops hash eps virtualNodesPerWeight
  hash := hash

/-- The bounded walk for an endpoint that is healthy and not excluded. -/
def healthyProbe (rh : RingHash) (start : Nat) (state : ClusterHealthEntry) (excl : List String) : Option String :=
  probe rh.endpoints (fun ep => !isExcluded ep.address excl && state.isAddressHealthy ep.address)
    (rh.ring.map snd) start

/-- The walk for an endpoint that is not excluded; if there is none it is the endpoint the key is hashed to. -/
def panicModeSelect (rh : RingHash) (start : Nat) (excl : List String) : Option String :=
  let walk := (slotsFrom (rh.ring.map snd) start).filterMap (rh.endpoints[·]?)
  match walk.find? fun ep => !isExcluded ep.address excl with
  | some ep => some ep.address
  | none => (rh.ring[start]?.bind fun entry => rh.endpoints[entry.2]?).map address

def select (ops : SliceOps) (rh : RingHash) (hashKey : Option String) (health : Option ClusterHealthEntry)
    (excl : List String) : Option String :=
  if rh.ring.isEmpty then none
  else
    let keyHash := rh.hash (hashKey.getD "")
    let start := ops.binarySearchByKey rh.ring keyHash % rh.ring.length
    (health.bind fun state => rh.healthyProbe start state excl).or (rh.panicModeSelect start excl)

end RingHash

/-! ## Points on the ring -/

/-- The points of one endpoint. -/
def pointsOf (hash : String → Nat) (vnodesPerWeight : Nat) (ep : WeightedEndpoint) : List (Nat × WeightedEndpoint) :=
  (range (min (ep.weight * vnodesPerWeight) (2 ^ 32 - 1))).map fun vnode =>
    (hash (ep.address ++ "#" ++ toString vnode), ep)

/-- The entries with the endpoints they stand for. -/
def resolve (eps : List WeightedEndpoint) (es : List (Nat × Nat)) : List (Nat × WeightedEndpoint) :=
  es.filterMap fun entry => eps[entry.2]?.map fun ep => (entry.1, ep)

section

variable {hash : String → Nat} {eps : List WeightedEndpoint} {vnodes : Nat}

theorem mem_ringEntries_lt {entry : Nat × Nat} (hentry : entry ∈ ringEntries hash eps vnodes) : entry.2 < eps.length := by
  obtain ⟨⟨ep, idx⟩, hmem, hentry⟩ := mem_flatMap.1 hentry
  obtain ⟨vnode, -, rfl⟩ := mem_map.1 hentry
  simpa using snd_lt_of_mem_zipIdx hmem

theorem resolve_ringEntries : resolve eps (ringEntries hash eps vnodes) = eps.flatMap (pointsOf hash vnodes) := by
  have hpoints : ∀ item ∈ eps.zipIdx,
      resolve eps ((range (min (item.1.weight * vnodes) (2 ^ 32 - 1))).map fun vnode =>
        (hash (item.1.address ++ "#" ++ toString vnode), item.2)) = pointsOf hash vnodes item.1 := by
    intro item hitem
    have hep : eps[item.2]? = some item.1 := by
      simpa using mk_mem_zipIdx_iff_getElem?.1 hitem
    rw [resolve, filterMap_map, pointsOf, ← filterMap_eq_map]
    refine filterMap_congr fun vnode _ => ?_
    simp only [Function.comp_apply, hep, map_some]
  calc resolve eps (ringEntries hash eps vnodes)
      = eps.zipIdx.flatMap (fun item => pointsOf hash vnodes item.1) := by
        rw [resolve, ringEntries, filterMap_flatMap]
        exact flatMap_congr hpoints
    _ = (eps.zipIdx.map fst).flatMap (pointsOf hash vnodes) := (flatMap_map ..).symm
    _ = eps.flatMap (pointsOf hash vnodes) := by rw [zipIdx_map_fst]

/-- The points of some of the endpoints are those of all endpoints that stand for one of them. -/
theorem flatMap_pointsOf_filter (keep : WeightedEndpoint → Bool) : ∀ eps : List WeightedEndpoint,
    (eps.filter keep).flatMap (pointsOf hash vnodes)
      = (eps.flatMap (pointsOf hash vnodes)).filter fun point => keep point.2
  | [] => rfl
  | ep :: eps => by
    have hhead : (pointsOf hash vnodes ep).filter (fun point => keep point.2) = if keep ep then pointsOf hash vnodes ep else [] := by
      rw [pointsOf, List.filter_map]
      cases hkeep : keep ep <;> simp [Function.comp_def, hkeep]
    rw [List.flatMap_cons, List.filter_append, hhead, ← flatMap_pointsOf_filter keep eps, List.filter_cons]
    split <;> rfl

/-- An entry keeps its hash when it is resolved. -/
theorem map_fst_ringEntries : (ringEntries hash eps vnodes).map fst = (eps.flatMap (pointsOf hash vnodes)).map fst := by
  rw [ringEntries, List.map_flatMap, List.map_flatMap, ← List.zipIdx_map_fst 0 eps, List.flatMap_map, List.zipIdx_map_fst]
  refine List.flatMap_congr fun item _ => ?_
  rw [List.map_map, pointsOf, List.map_map]
  rfl

end

/-! ## The walk from a key -/

/-- The sorted ring, with the endpoints its entries stand for. -/
def ringPoints (ops : SliceOps) (hash : String → Nat) (eps : List WeightedEndpoint) (vnodes : Nat) :
    List (Nat × WeightedEndpoint) :=
  resolve eps (buildRing ops hash eps vnodes)

/-- No two virtual nodes have the same hash. -/
def DistinctHashes (hash : String → Nat) (eps : List WeightedEndpoint) (vnodes : Nat) : Prop :=
  ((ringEntries hash eps vnodes).map fst).Nodup

section

variable {ops : SliceOps} {hash : String → Nat} {eps : List WeightedEndpoint} {vnodes : Nat}

section

variable (hdistinct : DistinctHashes hash eps vnodes)
include hdistinct

theorem DistinctHashes.filter (keep : WeightedEndpoint → Bool) : DistinctHashes hash (eps.filter keep) vnodes := by
  unfold DistinctHashes at hdistinct ⊢
  rw [map_fst_ringEntries, flatMap_pointsOf_filter]
  rw [map_fst_ringEntries] at hdistinct
  exact hdistinct.sublist (filter_sublist.map _)

theorem buildRing_sorted : (buildRing ops hash eps vnodes).Pairwise fun a b => a.1 < b.1 := by
  have hperm := ops.sort_perm (ringEntries hash eps vnodes)
  have hne : (buildRing ops hash eps vnodes).Pairwise fun a b => a.1 ≠ b.1 :=
    pairwise_map.1 ((hperm.map fst).nodup_iff.2 hdistinct)
  exact (ops.sort_sorted _).imp₂ (fun _ _ hle hne => lt_of_le_of_ne hle hne) hne

theorem ringPoints_sorted : (ringPoints ops hash eps vnodes).Pairwise fun a b => a.1 < b.1 := by
  refine (buildRing_sorted hdistinct).filterMap _ fun a a' hlt b hb b' hb' => ?_
  obtain ⟨ep, -, rfl⟩ := map_eq_some_iff.1 hb
  obtain ⟨ep', -, rfl⟩ := map_eq_some_iff.1 hb'
  exact hlt

end

theorem ringPoints_perm : (ringPoints ops hash eps vnodes).Perm (eps.flatMap (pointsOf hash vnodes)) := by
  rw [← resolve_ringEntries]
  exact (ops.sort_perm _).filterMap _

theorem owner_lt_of_mem_ring {owner : Nat} (howner : owner ∈ (buildRing ops hash eps vnodes).map snd) :
    owner < eps.length := by
  obtain ⟨entry, hentry, rfl⟩ := List.mem_map.1 howner
  exact mem_ringEntries_lt ((ops.sort_perm _).mem_iff.1 hentry)

theorem ringPoints_filter (hdistinct : DistinctHashes hash eps vnodes) {keep : WeightedEndpoint → Bool} :
    ringPoints ops hash (eps.filter keep) vnodes
      = (ringPoints ops hash eps vnodes).filter fun point => keep point.2 := by
  refine ring_eq_of_perm (ringPoints_sorted (hdistinct.filter keep)) ((ringPoints_sorted hdistinct).filter _) ?_
  have hwhole : ((ringPoints ops hash eps vnodes).filter fun point => keep point.2).Perm
      ((eps.filter keep).flatMap (pointsOf hash vnodes)) := by
    rw [flatMap_pointsOf_filter]
    exact ringPoints_perm.filter _
  exact ringPoints_perm.trans hwhole.symm

theorem exists_point (ops : SliceOps) (hash : String → Nat) (hvnodes : 1 ≤ vnodes) {ep : WeightedEndpoint} (hep : ep ∈ eps) :
    ∃ point ∈ ringPoints ops hash eps vnodes, point.2 = ep := by
  have hcount : 0 < min (ep.weight * vnodes) (2 ^ 32 - 1) :=
    lt_min (Nat.mul_pos ep.weight_pos hvnodes) (by decide)
  refine ⟨(hash (ep.address ++ "#" ++ toString 0), ep), ringPoints_perm.mem_iff.2 (mem_flatMap.2 ⟨ep, hep, ?_⟩), rfl⟩
  exact mem_map.2 ⟨0, mem_range.2 hcount, rfl⟩

theorem walk_eq (ops : SliceOps) (hdistinct : DistinctHashes hash eps vnodes) (key : Nat) :
    let ring := buildRing ops hash eps vnodes
    ((ring.map snd).rotate (ops.binarySearchByKey ring key % ring.length)).filterMap (eps[·]?)
      = (clockwise key (ringPoints ops hash eps vnodes)).map snd := by
  intro ring
  have hresolve : ∀ es : List (Nat × Nat), (es.map snd).filterMap (eps[·]?) = (resolve eps es).map snd := by
    intro es
    rw [filterMap_map, resolve, map_filterMap]
    exact filterMap_congr fun entry _ => by simp [Function.comp_def]
  rw [← map_rotate, rotate_eq_clockwise (buildRing_sorted hdistinct) (ops.search_located _ key (ops.sort_sorted _)),
    hresolve, ringPoints, resolve, resolve, filterMap_clockwise]
  intro entry point hpoint
  obtain ⟨ep, -, rfl⟩ := map_eq_some_iff.1 hpoint
  rfl

variable {hashKey : Option String} {health : Option ClusterHealthEntry} {excl : List String}

/-- As long as an endpoint may be picked, the first of them on the walk is. -/
theorem select_eq_find (hvnodes : 1 ≤ vnodes) (hdistinct : DistinctHashes hash eps vnodes) {header : Option String}
    (hsome : eps.filter (eligible health excl) ≠ []) :
    (RingHash.new ops eps header hash vnodes).select ops hashKey health excl
      = (((clockwise (hash (hashKey.getD "")) (ringPoints ops hash eps vnodes)).map snd).find?
          (eligible health excl)).map address := by
  obtain ⟨ep, hep⟩ := List.exists_mem_of_ne_nil _ hsome
  obtain ⟨hep, heligible⟩ := List.mem_filter.1 hep
  obtain ⟨point, hpoint, rfl⟩ := exists_point ops hash hvnodes hep
  have hring : ¬(RingHash.new ops eps header hash vnodes).ring.isEmpty := by
    rw [List.isEmpty_iff]
    intro (hempty : buildRing ops hash eps vnodes = [])
    rw [ringPoints, hempty] at hpoint
    exact List.not_mem_nil hpoint
  have hwalk := walk_eq ops hdistinct (hash (hashKey.getD ""))
  obtain ⟨found, hfound⟩ := Option.isSome_iff_exists.1
    (List.find?_isSome.2 ⟨point.2, List.mem_map_of_mem (mem_clockwise.2 hpoint), heligible⟩ :
      (((clockwise (hash (hashKey.getD "")) (ringPoints ops hash eps vnodes)).map snd).find?
        (eligible health excl)).isSome)
  rw [RingHash.select, if_neg hring]
  cases health with
  | none =>
    have heligible : eligible none excl = fun ep => !isExcluded ep.address excl := by
      funext ep
      simp [eligible, healthyIn]
    rw [heligible] at hfound
    simp only [RingHash.new, RingHash.panicModeSelect, Option.bind_none, Option.none_or, slotsFrom_eq, hwalk, heligible,
      hfound, Option.map_some]
  | some state =>
    have heligible : (fun ep => !isExcluded ep.address excl && state.isAddressHealthy ep.address)
        = eligible (some state) excl := by
      funext ep
      simp [eligible, healthyIn, Bool.and_comm]
    simp only [RingHash.new, RingHash.healthyProbe, Option.bind_some, probe_eq (fun _ => owner_lt_of_mem_ring), hwalk, heligible, hfound,
      Option.map_some, Option.some_or]

theorem exists_head_clockwise (ops : SliceOps) (hash : String → Nat) (hvnodes : 1 ≤ vnodes) (hsome : eps ≠ []) (key : Nat) :
    ∃ point, point.2 ∈ eps ∧ (clockwise key (ringPoints ops hash eps vnodes)).head? = some point := by
  obtain ⟨ep, hep⟩ := exists_mem_of_ne_nil _ hsome
  obtain ⟨point, hpoint, -⟩ := exists_point ops hash hvnodes hep
  obtain ⟨first, rest, hwalk⟩ := exists_cons_of_ne_nil 
    (ne_nil_of_mem (mem_clockwise.2 hpoint) : clockwise key _ ≠ [])
  have hfirst := mem_clockwise.1 (hwalk ▸ mem_cons_self)
  obtain ⟨owner, howner, hmem⟩ := mem_flatMap.1 (ringPoints_perm.mem_iff.1 hfirst)
  obtain ⟨vnode, -, rfl⟩ := mem_map.1 hmem
  exact ⟨_, howner, by rw [hwalk, head?_cons]⟩

/-- As long as an endpoint may be picked, the choice is the first point of the ring of those that may. -/
theorem select_eq_head (hvnodes : 1 ≤ vnodes) (hdistinct : DistinctHashes hash eps vnodes) {header : Option String}
    (hsome : eps.filter (eligible health excl) ≠ []) :
    (RingHash.new ops eps header hash vnodes).select ops hashKey health excl
      = ((clockwise (hash (hashKey.getD "")) (ringPoints ops hash (eps.filter (eligible health excl)) vnodes)).head?).map
          fun point => point.2.address := by
  rw [select_eq_find hvnodes hdistinct hsome, List.find?_map, ringPoints_filter hdistinct, ← filter_clockwise,
    List.head?_filter, Option.map_map]
  rfl

end

/-- The choice on the whole ring is the choice on the ring of the endpoints that may be picked. Hence taking an endpoint
off the ring, or marking it down, changes the choice of no key that another endpoint has. -/
theorem ring_minimal_disruption (ops : SliceOps) (hash : String → Nat) (eps : List WeightedEndpoint) (vnodes : Nat)
    (hvnodes : 1 ≤ vnodes) (hdistinct : DistinctHashes hash eps vnodes) (header hashKey : Option String)
    (health : Option ClusterHealthEntry) (excl : List String)
    (hsome : eps.filter (eligible health excl) ≠ []) :
    let choice := (RingHash.new ops eps header hash vnodes).select ops hashKey health excl
    choice = (RingHash.new ops (eps.filter (eligible health excl)) header hash vnodes).select ops hashKey none [] ∧
    ∀ addr, choice ≠ some addr →
      (RingHash.new ops (eps.filter (·.address != addr)) header hash vnodes).select ops hashKey health excl
        = choice ∧
      ∀ state : ClusterHealthEntry, state.isAddressHealthy addr = false →
        (∀ ep ∈ eps, ep.address ≠ addr → state.isAddressHealthy ep.address = healthyIn health ep) →
        (RingHash.new ops eps header hash vnodes).select ops hashKey (some state) excl = choice := by
  intro choice
  have hchoice : choice = _ := select_eq_head hvnodes hdistinct hsome
  refine ⟨?_, fun addr hne => ?_⟩
  · have hall : (eps.filter (eligible health excl)).filter (eligible none []) = eps.filter (eligible health excl) :=
      List.filter_eq_self.2 fun _ _ => rfl
    rw [select_eq_head hvnodes (hdistinct.filter _) (by rwa [hall]), hall]
    exact hchoice
  · -- the key keeps its endpoint when those that may be picked are the same except for `addr`
    have hkept : ∀ (eps' : List WeightedEndpoint) (health' : Option ClusterHealthEntry),
        DistinctHashes hash eps' vnodes →
        eps'.filter (eligible health' excl) = (eps.filter (eligible health excl)).filter (·.address != addr) →
        (RingHash.new ops eps' header hash vnodes).select ops hashKey health' excl = choice := by
      intro eps' health' hdistinct' heligible
      obtain ⟨point, hpoint, hhead⟩ := exists_head_clockwise ops hash hvnodes hsome (hash (hashKey.getD ""))
      have haddress : (point.2.address != addr) = true := by
        rw [hhead] at hchoice
        exact bne_iff_ne.2 fun heq => hne (hchoice.trans (congrArg some heq))
      have hsome' : eps'.filter (eligible health' excl) ≠ [] := by
        rw [heligible]
        exact List.ne_nil_of_mem (List.mem_filter.2 ⟨hpoint, haddress⟩)
      rw [select_eq_head hvnodes hdistinct' hsome', heligible, ringPoints_filter (hdistinct.filter _), ← filter_clockwise,
        List.head?_filter, hchoice, hhead]
      obtain ⟨rest, hrest⟩ := List.head?_eq_some_iff.1 hhead
      rw [hrest, List.find?_cons, haddress]
    refine ⟨hkept _ health (hdistinct.filter _) ?_, fun state hdown hothers => hkept _ (some state) hdistinct ?_⟩
    · rw [List.filter_filter, List.filter_filter]
      exact List.filter_congr fun ep _ => Bool.and_comm ..
    · rw [List.filter_filter]
      refine List.filter_congr fun ep hep => ?_
      rcases eq_or_ne ep.address addr with rfl | haddress
      · simp [eligible, healthyIn, hdown]
      · simp [eligible, healthyIn, hothers ep hep haddress, haddress]

theorem countP_lt_split (key : Nat) : ∀ {l : List (Nat × Nat)}, l.Pairwise (fun a b => a.1 ≤ b.1) →
    (∀ entry ∈ l.take (l.countP fun entry => decide (entry.1 < key)), entry.1 < key) ∧
    ∀ entry ∈ l.drop (l.countP fun entry => decide (entry.1 < key)), key ≤ entry.1
  | [], _ => by simp
  | a :: l, hsorted => by
    obtain ⟨ha, hl⟩ := pairwise_cons.1 hsorted
    rcases lt_or_ge a.1 key with hlt | hge
    · have hrest := countP_lt_split key hl
      simp only [countP_cons, decide_eq_true hlt, if_true, take_succ_cons, drop_succ_cons]
      exact ⟨forall_mem_cons.2 ⟨hlt, hrest.1⟩, hrest.2⟩
    · have hall : ∀ entry ∈ a :: l, key ≤ entry.1 :=
        forall_mem_cons.2 ⟨hge, fun entry hentry => hge.trans (ha entry hentry)⟩
      rw [countP_eq_zero.2 fun entry hentry => by simpa using hall entry hentry]
      exact ⟨by simp, hall⟩

/-- A reference implementation of what the ring asks of slices. -/
def SliceOps.reference : SliceOps where
  sortUnstableByKey l := l.mergeSort fun a b => decide (a.1 ≤ b.1)
  binarySearchByKey l key := l.countP fun entry => decide (entry.1 < key)
  sort_perm l := mergeSort_perm l _
  sort_sorted l := by
    have hsorted : (l.mergeSort fun a b => decide (a.1 ≤ b.1)).Pairwise fun a b => decide (a.1 ≤ b.1) = true :=
      pairwise_mergeSort (fun a b c hab hbc => by simp at *; omega) (fun a b => by simp; omega) l
    simpa using hsorted
  search_located l key hsorted := by
    obtain ⟨hbelow, habove⟩ := countP_lt_split key hsorted
    by_cases hfound : ∃ entry, l[l.countP fun entry => decide (entry.1 < key)]? = some entry ∧ entry.1 = key
    · exact .inl hfound
    · refine .inr ⟨countP_le_length, hbelow, fun entry hentry => ?_⟩
      -- the entry at the position is past the key, and the entries after it are not before it
      obtain ⟨first, rest, hdrop⟩ := exists_cons_of_ne_nil (ne_nil_of_mem hentry)
      have hfirst := head?_drop (l := l) ▸ congrArg head? hdrop
      have hlt : key < first.1 := lt_of_le_of_ne (habove first (hdrop ▸ (.head _))) fun heq =>
        hfound ⟨first, hfirst, heq.symm⟩
      have hsuffix := hdrop ▸ hsorted.drop
      rcases mem_cons.1 (hdrop ▸ hentry) with rfl | hentry
      · exact hlt
      · exact hlt.trans_le (rel_of_pairwise_cons hsuffix hentry)

/-- With one of two endpoints down, a key of the other stays where it is. -/
theorem ring_minimal_disruption_pair :
    let eps : List WeightedEndpoint := [{ address := "a:80", weight := 1 }, { address := "bb:80", weight := 1 }]
    let health := some ⟨[("a:80", false)]⟩
    (RingHash.new .reference eps none String.length 1).select .reference none health []
      = (RingHash.new .reference (eps.filter (eligible health [])) none String.length 1).select .reference none none [] := by
  intro eps health
  exact (ring_minimal_disruption .reference String.length eps 1 le_rfl (by unfold DistinctHashes; decide) none none health []
    (by decide)).1

end Praxis.Balancing
