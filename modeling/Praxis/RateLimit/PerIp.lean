/-
The rate limiter with a bucket for each client address. Buckets that have been idle are evicted from
time to time. A client without a bucket gets a full one, and an evicted bucket was full, so a client
cannot tell whether its bucket was evicted.
-/
import Praxis.RateLimit.TokenBucket
import Praxis.Headers.Network
import Mathlib.Data.List.AList
import Mathlib.Data.Rat.Floor

namespace Praxis.RateLimit

open List Option Praxis.Lib Praxis.Headers

/-! ## The limiter -/

def normalizeMappedIpv4 : IpAddr → IpAddr
  | .v6 addr => (toIpv4Mapped addr).elim (.v6 addr) .v4
  | .v4 addr => .v4 addr

structure Ipv6PrefixLen where
  len : Nat
  pos : 1 ≤ len
  le_max : len ≤ 128

def Ipv6PrefixLen.mask (prefixLen : Ipv6PrefixLen) : BitVec 128 :=
  let shift := 128 - prefixLen.len
  if shift < 128 then BitVec.allOnes 128 <<< shift else 0

/-- The filter in `per_ip` mode, with what its configuration was checked for and the constants of its
table. -/
structure RateLimitFilter where
  rate : ℚ
  burst : ℚ
  rate_pos : 0 < rate
  one_le_burst : 1 ≤ burst
  ipv6PrefixLen : Ipv6PrefixLen
  maxPerIpEntries : Nat := 100000
  hardCapPerIpEntries : Nat := 200000
  evictionIntervalNanos : Nat := 1000000000

structure PerIpState where
  buckets : AList (fun _ : IpAddr => TokenBucket)
  entries : Nat
  lastEvictionNanos : Nat

inductive AcquisitionFailure where
  | emptyBucket (remaining : ℚ)
  | untracked
deriving DecidableEq

/-- A client's request, in nanoseconds since the filter's epoch. -/
structure Acquisition where
  clientAddr : Option IpAddr
  nowNanos : UInt64
deriving DecidableEq

def retain (keep : TokenBucket → Bool) (buckets : AList (fun _ : IpAddr => TokenBucket)) :
    AList (fun _ : IpAddr => TokenBucket) :=
  ⟨buckets.entries.filter fun entry => keep entry.2, buckets.nodupKeys.sublist filter_sublist⟩

def PerIpState.new : PerIpState := ⟨∅, 0, 0⟩

namespace RateLimitFilter

variable (filter : RateLimitFilter)

def bucketKey (ip : IpAddr) : IpAddr :=
  match normalizeMappedIpv4 ip with
  | .v6 addr => .v6 (addr &&& filter.ipv6PrefixLen.mask)
  | .v4 addr => .v4 addr

/-- `claim_eviction_pass`, with no other caller. -/
def claimEvictionPass (state : PerIpState) (nowNanos : UInt64) : Bool × PerIpState :=
  if nowNanos.toNat - state.lastEvictionNanos < filter.evictionIntervalNanos then (false, state)
  else (true, { state with lastEvictionNanos := nowNanos.toNat })

/-- The cast of `2 * burst / rate` seconds saturates. -/
def idleThresholdNanos : Nat := min ⌊2 * filter.burst / filter.rate * 1000000000⌋₊ (2 ^ 64 - 1)

def maybeEvict (state : PerIpState) (nowNanos : UInt64) : PerIpState :=
  let (claimed, state) := filter.claimEvictionPass state nowNanos
  if !claimed then state
  else if state.entries ≤ filter.maxPerIpEntries then state
  else
    let buckets := retain (fun bucket => nowNanos.toNat - bucket.lastRefill ≤ filter.idleThresholdNanos) state.buckets
    let evicted := state.buckets.entries.length - buckets.entries.length
    { state with buckets, entries := state.entries - evicted }

def acquireFromBucket (bucket : TokenBucket) (now : UInt64) : Except AcquisitionFailure ℚ × TokenBucket :=
  match bucket.tryAcquire filter.rate filter.burst now.toNat with
  | (some remaining, bucket) => (.ok remaining, bucket)
  | (none, bucket) => (.error (.emptyBucket (bucket.currentTokens filter.rate filter.burst now.toNat)), bucket)

/-- The part of `acquire_per_ip` after the eviction. -/
def acquireForKey (state : PerIpState) (ip : IpAddr) (now : UInt64) : Except AcquisitionFailure ℚ × PerIpState :=
  match state.buckets.lookup ip with
  | some bucket =>
    let (result, bucket) := filter.acquireFromBucket bucket now
    (result, { state with buckets := state.buckets.insert ip bucket })
  | none =>
    if filter.hardCapPerIpEntries ≤ state.entries then (.error .untracked, state)
    else
      let (result, bucket) := filter.acquireFromBucket (.new filter.burst) now
      (result, { state with buckets := state.buckets.insert ip bucket, entries := state.entries + 1 })

/-- `acquire_per_ip`, and the same with eviction switched off. -/
def acquirePerIp (evicting : Bool) (state : PerIpState) (request : Acquisition) : Except AcquisitionFailure ℚ × PerIpState :=
  match request.clientAddr.map filter.bucketKey with
  | none => (.error .untracked, state)
  | some ip =>
    let state := if evicting then filter.maybeEvict state request.nowNanos else state
    filter.acquireForKey state ip request.nowNanos

end RateLimitFilter

/-! ## Buckets that cannot be told apart -/

theorem lookup_retain (keep : TokenBucket → Bool) (buckets : AList (fun _ : IpAddr => TokenBucket)) {ip : IpAddr} :
    (retain keep buckets).lookup ip = (buckets.lookup ip).filter keep := by
  ext bucket
  rw [← mem_def, ← mem_def, AList.mem_lookup_iff, mem_filter_iff, AList.mem_lookup_iff, retain,
    mem_filter]

/-- A stored bucket, at a time that is not before its last refill. -/
structure TokenBucket.Stored (bucket : TokenBucket) (burst : ℚ) (seen : Nat) : Prop where
  refill : bucket.lastRefill ≤ seen
  nonneg : 0 ≤ bucket.tokens
  le_burst : bucket.tokens ≤ burst

namespace RateLimitFilter

variable (filter : RateLimitFilter)

/-- Nothing is missing in the bucket. -/
def Full (seen : Nat) (bucket : TokenBucket) : Prop := bucket.currentTokens filter.rate filter.burst seen = filter.burst

/-- The buckets are one, or nothing is missing in either. -/
def Alike (seen : Nat) (a b : TokenBucket) : Prop := a = b ∨ filter.Full seen a ∧ filter.Full seen b

variable {filter} {seen now : Nat} {a b c : TokenBucket}

theorem Full.mono (h : filter.Full seen a) (hle : seen ≤ now) : filter.Full now a :=
  le_antisymm (min_le_right _ _) (h.ge.trans (currentTokens_mono a filter.burst filter.rate_pos.le hle))

theorem Full.new : filter.Full seen (.new filter.burst) := by
  refine min_eq_right ?_
  have hgain := mul_nonneg (nanosToSecs_nonneg (seen - 0)) filter.rate_pos.le
  simp only [TokenBucket.new]
  linarith

theorem Alike.mono (h : filter.Alike seen a b) (hle : seen ≤ now) : filter.Alike now a b :=
  h.imp_right fun hfull => ⟨hfull.1.mono hle, hfull.2.mono hle⟩

theorem Alike.trans (h : filter.Alike seen a b) (h' : filter.Alike seen b c) : filter.Alike seen a c := by
  rcases h with rfl | ⟨ha, hb⟩
  · exact h'
  · rcases h' with rfl | ⟨_, hc⟩
    · exact .inr ⟨ha, hb⟩
    · exact .inr ⟨ha, hc⟩

theorem stored_new : (TokenBucket.new filter.burst).Stored filter.burst seen :=
  ⟨Nat.zero_le seen, le_trans zero_le_one filter.one_le_burst, le_refl filter.burst⟩

section

variable {now : UInt64} (h : a.Stored filter.burst now.toNat)
include h

theorem full_of_idle (hidle : filter.idleThresholdNanos < now.toNat - a.lastRefill) : filter.Full now.toNat a := by
  have hlong : ⌊2 * filter.burst / filter.rate * 1000000000⌋₊ < now.toNat - a.lastRefill := by
    -- the saturated threshold is above any time between two timestamps
    have hnow := now.toNat_lt
    unfold idleThresholdNanos at hidle
    omega
  have helapsed := Nat.lt_of_floor_lt hlong
  have hrate := filter.rate_pos
  have hburst := filter.one_le_burst
  refine min_eq_right ?_
  have hgain : 2 * filter.burst < nanosToSecs (now.toNat - a.lastRefill) * filter.rate := by
    rw [nanosToSecs_eq, div_mul_eq_mul_div, lt_div_iff₀ (by norm_num)]
    calc 2 * filter.burst * 1000000000
        = 2 * filter.burst / filter.rate * 1000000000 * filter.rate := by field_simp
      _ < _ := mul_lt_mul_of_pos_right helapsed hrate
  linarith [h.nonneg]

/-! ## One acquisition -/

theorem acquireFromBucket_cases :
    (a.currentTokens filter.rate filter.burst now.toNat < 1 ∧ (filter.acquireFromBucket a now).2 = a) ∨
    (1 ≤ a.currentTokens filter.rate filter.burst now.toNat ∧ filter.acquireFromBucket a now =
      (.ok (a.currentTokens filter.rate filter.burst now.toNat - 1),
        ⟨now.toNat, a.currentTokens filter.rate filter.burst now.toNat - 1⟩)) := by
  rw [acquireFromBucket]
  rcases tryAcquire_cases filter.rate h.le_burst now.toNat with ⟨hfew, heq⟩ | ⟨henough, heq⟩
  · rw [heq]
    exact .inl ⟨hfew, rfl⟩
  · rw [heq, max_eq_right h.refill]
    exact .inr ⟨henough, rfl⟩

theorem stored_acquireFromBucket : (filter.acquireFromBucket a now).2.Stored filter.burst now.toNat := by
  rcases acquireFromBucket_cases h with ⟨_, heq⟩ | ⟨henough, heq⟩
  · rw [heq]
    exact h
  · rw [heq]
    have hle : a.currentTokens filter.rate filter.burst now.toNat ≤ filter.burst := min_le_right _ _
    exact ⟨le_refl _, sub_nonneg.2 henough, by linarith⟩

theorem acquireFromBucket_full (hfull : filter.Full now.toNat a) :
    filter.acquireFromBucket a now = (.ok (filter.burst - 1), ⟨now.toNat, filter.burst - 1⟩) := by
  rcases acquireFromBucket_cases h with ⟨hfew, _⟩ | ⟨_, heq⟩
  · rw [hfull] at hfew
    exact absurd filter.one_le_burst (not_le.2 hfew)
  · rw [heq, hfull]

end

theorem acquireFromBucket_alike {now : UInt64} (ha : a.Stored filter.burst now.toNat) (hb : b.Stored filter.burst now.toNat)
    (h : filter.Alike now.toNat a b) : filter.acquireFromBucket a now = filter.acquireFromBucket b now := by
  rcases h with rfl | ⟨hfull, hfull'⟩
  · rfl
  · rw [acquireFromBucket_full ha hfull, acquireFromBucket_full hb hfull']

/-! ## The two tables -/

variable (filter)

/-- The client's bucket, or the one it would get. -/
def bucketOf (state : PerIpState) (ip : IpAddr) : TokenBucket := (state.buckets.lookup ip).getD (.new filter.burst)

/-- The client has a bucket or there is room for one. -/
def HasRoom (state : PerIpState) (request : Acquisition) : Prop :=
  ∀ ip ∈ request.clientAddr.map filter.bucketKey, ip ∈ state.buckets ∨ state.entries < filter.hardCapPerIpEntries

instance (state : PerIpState) (request : Acquisition) : Decidable (filter.HasRoom state request) :=
  inferInstanceAs (Decidable (∀ ip ∈ request.clientAddr.map filter.bucketKey,
    ip ∈ state.buckets.keys ∨ state.entries < filter.hardCapPerIpEntries))

/-- The table after an acquisition. -/
def acquireStep (evicting : Bool) (state : PerIpState) (request : Acquisition) : Option PerIpState :=
  some (filter.acquirePerIp evicting state request).2

/-- With eviction switched off, no request finds the hard cap reached. -/
def HardCapUnreached (requests : List Acquisition) : Prop := Along (filter.acquireStep false) filter.HasRoom .new requests

/-- The table counts its buckets and holds no more than the cap; they are stored buckets. -/
structure Tabled (seen : Nat) (state : PerIpState) : Prop where
  stored : ∀ ip, (filter.bucketOf state ip).Stored filter.burst seen
  counted : state.entries = state.buckets.entries.length
  capped : state.entries ≤ filter.hardCapPerIpEntries

/-- Every client finds buckets in the two tables that are alike; what the first knows the second
knows. -/
structure Mirrors (seen : Nat) (on off : PerIpState) : Prop where
  left : filter.Tabled seen on
  right : filter.Tabled seen off
  alike : ∀ ip, filter.Alike seen (filter.bucketOf on ip) (filter.bucketOf off ip)
  known : ∀ ip, ip ∈ on.buckets → ip ∈ off.buckets

variable {filter} {on off state : PerIpState}

theorem Tabled.new : filter.Tabled seen .new := ⟨fun _ => stored_new, rfl, Nat.zero_le _⟩

theorem Tabled.mono (h : filter.Tabled seen state) (hle : seen ≤ now) : filter.Tabled now state :=
  ⟨fun ip => ⟨le_trans (h.stored ip).refill hle, (h.stored ip).nonneg, (h.stored ip).le_burst⟩, h.counted, h.capped⟩

theorem Mirrors.mono (h : filter.Mirrors seen on off) (hle : seen ≤ now) : filter.Mirrors now on off :=
  ⟨h.left.mono hle, h.right.mono hle, fun ip => (h.alike ip).mono hle, h.known⟩

/-- An eviction leaves the table, or drops the idle buckets and counts them out. -/
theorem maybeEvict_cases (filter : RateLimitFilter) (state : PerIpState) (now : UInt64) :
    ((filter.maybeEvict state now).buckets = state.buckets ∧ (filter.maybeEvict state now).entries = state.entries) ∨
    ((filter.maybeEvict state now).buckets =
        retain (fun bucket => now.toNat - bucket.lastRefill ≤ filter.idleThresholdNanos) state.buckets ∧
      (filter.maybeEvict state now).entries =
        state.entries - (state.buckets.entries.length - (filter.maybeEvict state now).buckets.entries.length)) := by
  unfold maybeEvict claimEvictionPass
  by_cases hsoon : now.toNat - state.lastEvictionNanos < filter.evictionIntervalNanos
  · simp only [if_pos hsoon]
    exact .inl ⟨rfl, rfl⟩
  · simp only [if_neg hsoon]
    by_cases hfew : state.entries ≤ filter.maxPerIpEntries
    · simp [hfew]
    · simp [hfew]

theorem bucketOf_maybeEvict {now : UInt64} (h : filter.Tabled now.toNat state) (ip : IpAddr) :
    filter.bucketOf (filter.maybeEvict state now) ip = filter.bucketOf state ip ∨
      filter.bucketOf (filter.maybeEvict state now) ip = .new filter.burst ∧ filter.Full now.toNat (filter.bucketOf state ip) := by
  have hstored := h.stored ip
  unfold bucketOf at hstored ⊢
  rcases maybeEvict_cases filter state now with ⟨heq, _⟩ | ⟨heq, _⟩
  · exact .inl (by rw [heq])
  · rw [heq, lookup_retain]
    rcases hlookup : state.buckets.lookup ip with _ | bucket
    · exact .inl rfl
    · rw [hlookup] at hstored
      rw [filter_some]
      split
      · exact .inl rfl
      · rename_i hdrop
        exact .inr ⟨rfl, full_of_idle hstored (not_le.1 fun hkeep => hdrop (decide_eq_true hkeep))⟩

variable {ip : IpAddr}

theorem mem_maybeEvict {now : UInt64} (h : ip ∈ (filter.maybeEvict state now).buckets) : ip ∈ state.buckets := by
  rcases maybeEvict_cases filter state now with ⟨heq, _⟩ | ⟨heq, _⟩
  · rwa [heq] at h
  · rw [heq, ← AList.lookup_isSome, lookup_retain] at h
    exact AList.lookup_isSome.1 (isSome_of_isSome_filter _ _ h)

theorem maybeEvict_counted (filter : RateLimitFilter) (now : UInt64) (h : state.entries = state.buckets.entries.length) :
    (filter.maybeEvict state now).entries = (filter.maybeEvict state now).buckets.entries.length ∧
      (filter.maybeEvict state now).entries ≤ state.entries := by
  rcases maybeEvict_cases filter state now with ⟨heq, hentries⟩ | ⟨heq, hentries⟩
  · rw [heq, hentries]
    exact ⟨h, le_rfl⟩
  · have hle : (filter.maybeEvict state now).buckets.entries.length ≤ state.buckets.entries.length := by
      rw [heq]
      exact length_filter_le _ _
    omega

theorem Mirrors.maybeEvict {now : UInt64} (h : filter.Mirrors now.toNat on off) :
    filter.Mirrors now.toNat (filter.maybeEvict on now) off := by
  obtain ⟨hcounted, hle⟩ := maybeEvict_counted filter now h.left.counted
  refine ⟨⟨fun ip => ?_, hcounted, le_trans hle h.left.capped⟩, h.right, fun ip => ?_, fun ip hmem => h.known ip (mem_maybeEvict hmem)⟩
  · rcases bucketOf_maybeEvict h.left ip with heq | ⟨heq, _⟩
    · rw [heq]
      exact h.left.stored ip
    · rw [heq]
      exact stored_new
  · rcases bucketOf_maybeEvict h.left ip with heq | ⟨heq, hfull⟩
    · rw [heq]
      exact h.alike ip
    · rw [heq]
      exact Alike.trans (.inr ⟨Full.new, hfull⟩) (h.alike ip)

theorem entries_length_insert (buckets : AList (fun _ : IpAddr => TokenBucket)) (bucket : TokenBucket) :
    (buckets.insert ip bucket).entries.length =
      if ip ∈ buckets then buckets.entries.length else buckets.entries.length + 1 := by
  have hkeys : ∀ buckets : AList (fun _ : IpAddr => TokenBucket), buckets.entries.length = buckets.keys.length :=
    fun buckets => (length_map _).symm
  rw [hkeys, hkeys, AList.keys_insert, length_cons]
  split
  case isTrue hmem =>
    rw [length_erase_of_mem hmem]
    have hpos := length_pos_of_mem (AList.mem_keys.1 hmem)
    omega
  case isFalse hmem => rw [erase_of_not_mem hmem]

/-- With room for the client, its bucket answers and is put back. -/
theorem acquireForKey_eq (hroom : ip ∈ state.buckets ∨ state.entries < filter.hardCapPerIpEntries) {now : UInt64} :
    filter.acquireForKey state ip now =
      ((filter.acquireFromBucket (filter.bucketOf state ip) now).1,
        { state with
          buckets := state.buckets.insert ip (filter.acquireFromBucket (filter.bucketOf state ip) now).2
          entries := if ip ∈ state.buckets then state.entries else state.entries + 1 }) := by
  unfold acquireForKey bucketOf
  rcases hlookup : state.buckets.lookup ip with _ | bucket
  · have hnew := AList.lookup_eq_none.1 hlookup
    simp only [getD_none, if_neg hnew, if_neg (not_le.2 (hroom.resolve_left hnew))]
  · have hknown : ip ∈ state.buckets := AList.lookup_isSome.1 (isSome_of_mem hlookup)
    simp only [getD_some, if_pos hknown]

theorem bucketOf_insert (other : IpAddr) (bucket : TokenBucket) (entries : Nat) :
    filter.bucketOf { state with buckets := state.buckets.insert ip bucket, entries := entries } other =
      if other = ip then bucket else filter.bucketOf state other := by
  unfold bucketOf
  split
  case isTrue heq =>
    subst heq
    rw [AList.lookup_insert, getD_some]
  case isFalse hne => rw [AList.lookup_insert_ne hne]

theorem Tabled.acquireForKey {now : UInt64} {ip : IpAddr} (h : filter.Tabled now.toNat state)
    (hroom : ip ∈ state.buckets ∨ state.entries < filter.hardCapPerIpEntries) :
    filter.Tabled now.toNat (filter.acquireForKey state ip now).2 := by
  rw [acquireForKey_eq hroom]
  refine ⟨fun other => ?_, ?_, ?_⟩
  · rw [bucketOf_insert]
    split
    · exact stored_acquireFromBucket (h.stored ip)
    · exact h.stored other
  · dsimp only
    rw [entries_length_insert, h.counted]
  · dsimp only
    have hcapped := h.capped
    split
    · exact hcapped
    · rename_i hnew
      exact hroom.resolve_left hnew

theorem Mirrors.room (h : filter.Mirrors seen on off) (hroom : ip ∈ off.buckets ∨ off.entries < filter.hardCapPerIpEntries) :
    ip ∈ on.buckets ∨ on.entries < filter.hardCapPerIpEntries := by
  by_cases hmem : ip ∈ on.buckets
  · exact .inl hmem
  · right
    have hkeys : ∀ state, filter.Tabled seen state → state.entries = state.buckets.keys.length := fun state htabled => by
      rw [htabled.counted, AList.keys, keys, length_map]
    rcases hroom with hknown | hroom
    · -- the client was evicted, so the other table is larger
      have hlarger := (subperm_of_subset (nodup_cons.2 ⟨hmem, on.buckets.keys_nodup⟩)
        (cons_subset.2 ⟨hknown, fun ip hip => h.known ip hip⟩)).length_le
      rw [length_cons, ← hkeys on h.left, ← hkeys off h.right] at hlarger
      exact lt_of_lt_of_le hlarger h.right.capped
    · have hle := (subperm_of_subset on.buckets.keys_nodup fun ip hip => h.known ip hip).length_le
      rw [← hkeys on h.left, ← hkeys off h.right] at hle
      exact lt_of_le_of_lt hle hroom

/-- The client gets one answer from both tables, which stay alike. -/
theorem Mirrors.acquireForKey {now : UInt64} {ip : IpAddr} (h : filter.Mirrors now.toNat on off)
    (hroom : ip ∈ off.buckets ∨ off.entries < filter.hardCapPerIpEntries) :
    (filter.acquireForKey on ip now).1 = (filter.acquireForKey off ip now).1 ∧
      filter.Mirrors now.toNat (filter.acquireForKey on ip now).2 (filter.acquireForKey off ip now).2 := by
  have hleft := h.left.acquireForKey (h.room hroom)
  have hright := h.right.acquireForKey hroom
  have hbuckets := acquireFromBucket_alike (h.left.stored ip) (h.right.stored ip) (h.alike ip)
  rw [acquireForKey_eq (h.room hroom)] at hleft ⊢
  rw [acquireForKey_eq hroom] at hright ⊢
  refine ⟨congrArg (·.1) hbuckets, hleft, hright, fun other => ?_, fun other hmem => ?_⟩
  · rw [bucketOf_insert, bucketOf_insert]
    split
    · exact .inl (congrArg Prod.snd hbuckets)
    · exact h.alike other
  · rw [AList.mem_insert] at hmem ⊢
    exact hmem.imp_right (h.known other)

theorem Mirrors.acquirePerIp {request : Acquisition} (h : filter.Mirrors request.nowNanos.toNat on off)
    (hroom : filter.HasRoom off request) :
    (filter.acquirePerIp true on request).1 = (filter.acquirePerIp false off request).1 ∧
      filter.Mirrors request.nowNanos.toNat (filter.acquirePerIp true on request).2 (filter.acquirePerIp false off request).2 := by
  unfold RateLimitFilter.acquirePerIp
  rcases hkey : request.clientAddr.map filter.bucketKey with _ | ip
  · exact ⟨rfl, h⟩
  · exact h.maybeEvict.acquireForKey (hroom ip hkey)

end RateLimitFilter

/-- Requests in the order of their timestamps get the answers of the limiter that never evicts. -/
theorem eviction_unnoticed (filter : RateLimitFilter) (requests : List Acquisition)
    (hordered : requests.Pairwise fun a b => a.nowNanos ≤ b.nowNanos) (hcap : filter.HardCapUnreached requests) :
    answers (filter.acquirePerIp true) .new requests = answers (filter.acquirePerIp false) .new requests := by
  -- the tables mirror each other at some time that no request to come is before
  refine answers_eq (R := fun on off requests => ∃ seen, filter.Mirrors seen on off ∧
    (∀ request ∈ requests, seen ≤ request.nowNanos.toNat) ∧ requests.Pairwise (fun a b => a.nowNanos ≤ b.nowNanos) ∧
      Along (filter.acquireStep false) filter.HasRoom off requests) ?_
    ⟨0, ⟨.new, .new, fun _ => .inl rfl, fun _ h => h⟩, fun _ _ => Nat.zero_le _, hordered, hcap⟩
  rintro on off request rest ⟨seen, hmirrors, hlater, hordered, hroom, halong⟩
  have hnow := hmirrors.mono (hlater request (.head _))
  obtain ⟨hfirst, hrest⟩ := pairwise_cons.1 hordered
  obtain ⟨hanswer, hnext⟩ := hnow.acquirePerIp hroom
  exact ⟨hanswer, request.nowNanos.toNat, hnext, fun later hmem => UInt64.le_iff_toNat_le.1 (hfirst later hmem), hrest,
    halong _ rfl⟩

/-- A table that evicts above one bucket. -/
def smallTable : RateLimitFilter where
  rate := 1
  burst := 1
  rate_pos := by decide
  one_le_burst := by decide
  ipv6PrefixLen := ⟨64, by decide, by decide⟩
  maxPerIpEntries := 1
  hardCapPerIpEntries := 3

/-- Two clients, of which the first comes back after five seconds and twice. -/
def comingBack : List Acquisition :=
  [⟨some (.v4 1), 0⟩, ⟨some (.v4 2), 0⟩, ⟨some (.v4 1), 5000000000⟩, ⟨some (.v4 1), 5000000000⟩, ⟨none, 5000000000⟩]

theorem smallTable_unnoticed :
    ((run (smallTable.acquireStep true) .new comingBack).map PerIpState.entries = some 1 ∧
      (run (smallTable.acquireStep false) .new comingBack).map PerIpState.entries = some 2) ∧
    answers (smallTable.acquirePerIp true) .new comingBack = answers (smallTable.acquirePerIp false) .new comingBack :=
  ⟨by decide +kernel, eviction_unnoticed smallTable comingBack (by decide) (by unfold RateLimitFilter.HardCapUnreached; decide +kernel)⟩

end Praxis.RateLimit
