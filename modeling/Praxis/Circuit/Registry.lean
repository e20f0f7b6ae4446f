/-
The registry of breakers by peer, and its eviction of idle ones. An eviction only removes breakers
that would admit the next request, provided that the idle threshold is not below the probe
timeout: a half-open breaker whose probe was released has nothing in flight, yet still refuses.
-/
import Praxis.Circuit.Breaker
import Praxis.Lib.Machine
import Mathlib.Data.List.AList

namespace Praxis.Circuit

open Option Bool Praxis.Lib

/-! ## The registry -/

structure SocketAddr where
  ip : List UInt8
  port : UInt16
deriving Repr, DecidableEq

structure PeerKey where
  addr : SocketAddr
  sni : String
deriving Repr, DecidableEq

structure CircuitBreakerRegistry where
  breakers : AList (fun _ : PeerKey => CircuitBreaker)
  config : CircuitBreakerConfig

namespace CircuitBreakerRegistry

def new (cfg : CircuitBreakerConfig) : CircuitBreakerRegistry := ⟨∅, cfg⟩

def precheck (reg : CircuitBreakerRegistry) (peer : PeerKey) (now : Nat) : Bool :=
  (reg.breakers.lookup peer).all fun cb => cb.precheck reg.config now

variable (reg : CircuitBreakerRegistry)

/-- Run a critical section on the breaker of a peer, if it has one. -/
def modify (peer : PeerKey) (f : CircuitBreaker → CircuitBreaker) : CircuitBreakerRegistry :=
  match reg.breakers.lookup peer with
  | some cb => { reg with breakers := reg.breakers.insert peer (f cb) }
  | none => reg

/-- `try_acquire`: a peer without a breaker gets one. -/
def tryAcquire (reg : CircuitBreakerRegistry) (peer : PeerKey) (now : Nat) : CircuitCheck × CircuitBreakerRegistry :=
  let (check, cb) := ((reg.breakers.lookup peer).getD (.new now)).tryAcquire reg.config now
  (check, { reg with breakers := reg.breakers.insert peer cb })

def recordSuccess (reg : CircuitBreakerRegistry) (peer : PeerKey) (token : CircuitToken) (now : Nat) :
    CircuitBreakerRegistry :=
  reg.modify peer fun cb => cb.recordSuccess token now

def recordFailure (reg : CircuitBreakerRegistry) (peer : PeerKey) (token : CircuitToken) (now : Nat) :
    CircuitBreakerRegistry :=
  reg.modify peer fun cb => cb.recordFailure reg.config token now

def release (reg : CircuitBreakerRegistry) (peer : PeerKey) : CircuitBreakerRegistry := reg.modify peer (·.release)

/-- `remove_if` of the breaker being idle; whether it removed. -/
def removeIfIdle (idleThreshold now : Nat) (peer : PeerKey) : Bool × CircuitBreakerRegistry :=
  match reg.breakers.lookup peer with
  | some cb =>
    if cb.isIdle reg.config idleThreshold now then (true, { reg with breakers := reg.breakers.erase peer })
    else (false, reg)
  | none => (false, reg)

/-- The removals of `evict_idle`, and how many there were. -/
def removeIdle (reg : CircuitBreakerRegistry) (idleThreshold now : Nat) : List PeerKey → Nat × CircuitBreakerRegistry
  | [] => (0, reg)
  | peer :: rest =>
    let (removed, reg) := reg.removeIfIdle idleThreshold now peer
    let (count, reg) := reg.removeIdle idleThreshold now rest
    (if removed then count + 1 else count, reg)

/-- The breakers that look idle. -/
def candidates (idleThreshold now : Nat) : List PeerKey :=
  (reg.breakers.entries.filter fun entry => entry.2.isIdle reg.config idleThreshold now).map (·.1)

def evictIdle (idleThreshold now : Nat) : Nat × CircuitBreakerRegistry :=
  reg.removeIdle idleThreshold now (reg.candidates idleThreshold now)

end CircuitBreakerRegistry

/-! ## Histories -/

/-- A token in the hands of a caller, and the peer it was issued for. -/
structure PeerToken where
  peer : PeerKey
  token : CircuitToken
deriving Repr, DecidableEq

/-- What callers do. A token may be handed back for any peer. `removeIdle` stands for the removals
of an `evict_idle` that other calls have overtaken, so that its candidates are arbitrary. -/
inductive RegistryCall where
  | tryAcquire (peer : PeerKey)
  | recordSuccess (peer : PeerKey) (held : PeerToken)
  | recordFailure (peer : PeerKey) (held : PeerToken)
  | release (peer : PeerKey) (held : PeerToken)
  | drop (held : PeerToken)
  | evictIdle (idleThreshold : Nat)
  | removeIdle (candidates : List PeerKey) (idleThreshold : Nat)

structure RegistryEvent where
  now : Nat
  call : RegistryCall

/-- The registry, the tokens outstanding, and the latest clock reading. -/
structure RegistrySys where
  registry : CircuitBreakerRegistry
  held : List PeerToken
  clock : Nat

def RegistrySys.new (cfg : CircuitBreakerConfig) (start : Nat) : RegistrySys := ⟨.new cfg, [], start⟩

def RegistrySys.consume (s : RegistrySys) (held : PeerToken) (reg : CircuitBreakerRegistry) (now : Nat) : Option RegistrySys :=
  if held ∈ s.held then some ⟨reg, s.held.erase held, now⟩ else none

def RegistrySys.call (s : RegistrySys) (now : Nat) : RegistryCall → Option RegistrySys
  | .tryAcquire peer =>
    match s.registry.tryAcquire peer now with
    | (.allowed token, reg) => some ⟨reg, ⟨peer, token⟩ :: s.held, now⟩
    | (.rejected, reg) => some ⟨reg, s.held, now⟩
  | .recordSuccess peer held => s.consume held (s.registry.recordSuccess peer held.token now) now
  | .recordFailure peer held => s.consume held (s.registry.recordFailure peer held.token now) now
  | .release peer held => s.consume held (s.registry.release peer) now
  | .drop held => s.consume held s.registry now
  | .evictIdle idleThreshold => some ⟨(s.registry.evictIdle idleThreshold now).2, s.held, now⟩
  | .removeIdle candidates idleThreshold => some ⟨(s.registry.removeIdle idleThreshold now candidates).2, s.held, now⟩

/-- The clock does not go back. -/
def registryStep (s : RegistrySys) (e : RegistryEvent) : Option RegistrySys :=
  if s.clock ≤ e.now then s.call e.now e.call else none

/-! ## One breaker over time -/

section

variable {cfg : CircuitBreakerConfig} {cb : CircuitBreaker} {clock now : Nat}

/-- Timers are set in the states that read them, and a half-open phase is not older than the last
activity. -/
structure BreakerOk (clock : Nat) (cb : CircuitBreaker) : Prop where
  mirrored : cb.Mirrored
  activity : cb.inner.lastActivity ≤ clock
  opened : cb.inner.state = .opened → cb.inner.openedAt.isSome = true
  halfOpen : cb.inner.state = .halfOpen → ∃ start, cb.inner.halfOpenedAt = some start ∧ start ≤ cb.inner.lastActivity

theorem BreakerOk.mono (h : BreakerOk clock cb) (hle : clock ≤ now) : BreakerOk now cb :=
  ⟨h.mirrored, le_trans h.activity hle, h.opened, h.halfOpen⟩

theorem breakerOk_new (now : Nat) : BreakerOk now (.new now) := ⟨mirrored_new now, le_rfl, nofun, nofun⟩

theorem breakerOk_tryAcquire (cfg : CircuitBreakerConfig) (h : BreakerOk clock cb) (hle : clock ≤ now) : BreakerOk now (cb.tryAcquire cfg now).2 := by
  rcases tryAcquire_cases cb cfg now with ⟨hstate, heq⟩ | ⟨-, heq⟩ | ⟨-, heq⟩ <;> rw [heq]
  · exact ⟨mirrored_store _, le_rfl, fun hopened => absurd (hstate.symm.trans hopened) (by decide),
      fun hopened => absurd (hstate.symm.trans hopened) (by decide)⟩
  · exact ⟨mirrored_store _, le_rfl, by rintro ⟨⟩, fun _ => ⟨now, rfl, le_rfl⟩⟩
  · refine ⟨mirrored_store _, le_rfl, h.opened, fun hstate => ?_⟩
    obtain ⟨start, hstart, hbefore⟩ := h.halfOpen hstate
    exact ⟨start, hstart, le_trans hbefore (le_trans h.activity hle)⟩

theorem breakerOk_handed {token : CircuitToken} {success : Bool} {cb' : CircuitBreaker} (h : BreakerOk clock cb) (hle : clock ≤ now)
    (hhanded : Handed cb token now success cb') : BreakerOk now cb' := by
  cases hhanded with
  | stale => exact ⟨h.mirrored, le_trans h.activity hle, h.opened, h.halfOpen⟩
  | counts _ hstate =>
    exact ⟨mirrored_store _, le_rfl, fun hopened => absurd (hstate.symm.trans hopened) (by decide),
      fun hopened => absurd (hstate.symm.trans hopened) (by decide)⟩
  | opens => exact ⟨mirrored_store _, le_rfl, fun _ => rfl, by rintro ⟨⟩⟩
  | closes => exact ⟨mirrored_store _, le_rfl, by rintro ⟨⟩, by rintro ⟨⟩⟩
  | late _ hstate =>
    exact ⟨mirrored_store _, le_rfl, h.opened, fun hopened => absurd (hstate.symm.trans hopened) (by decide)⟩

theorem breakerOk_release (h : BreakerOk clock cb) (hle : clock ≤ now) : BreakerOk now cb.release :=
  ⟨mirrored_store _, le_trans h.activity hle, h.opened, h.halfOpen⟩

/-- A breaker that is idle past the probe timeout admits the next request. -/
theorem precheck_of_isIdle {idleThreshold : Nat} (h : BreakerOk clock cb)
    (hprobe : cfg.halfOpenTimeout ≤ idleThreshold ∨ (cb.inner.state = .halfOpen → 0 < cb.inner.inFlight))
    (hidle : cb.isIdle cfg idleThreshold now = true) : cb.inner.inFlight = 0 ∧ cb.precheck cfg now = true := by
  rw [CircuitBreaker.isIdle, Bool.and_eq_true, Bool.and_eq_true, decide_eq_true_eq, decide_eq_true_eq] at hidle
  obtain ⟨⟨hnone, hwindow⟩, hquiet⟩ := hidle
  refine ⟨hnone, ?_⟩
  rw [CircuitBreaker.precheck]
  split
  case isTrue => rfl
  case isFalse =>
    rcases hstate : cb.inner.state
    case closed => rfl
    case opened =>
      obtain ⟨start, hstart⟩ := Option.isSome_iff_exists.1 (h.opened hstate)
      rw [hstate, hstart] at hwindow
      simp only [decide_true, Bool.true_and, Option.any_some, Bool.not_eq_true', decide_eq_false_iff_not, Nat.not_lt] at hwindow
      simp only [hstart, elapsedAtLeast, Option.any_some, decide_eq_true_eq]
      exact hwindow
    case halfOpen =>
      obtain ⟨start, hstart, hbefore⟩ := h.halfOpen hstate
      simp only [hstart, elapsedAtLeast, Option.any_some, decide_eq_true_eq]
      rcases hprobe with hthreshold | hbusy
      · omega
      · have hpos := hbusy hstate
        omega

end

/-! ## Removals -/

section

variable (idleThreshold now : Nat)

@[simp] theorem removeIfIdle_config (reg : CircuitBreakerRegistry) (peer : PeerKey) :
    (reg.removeIfIdle idleThreshold now peer).2.config = reg.config := by
  rw [CircuitBreakerRegistry.removeIfIdle]
  split
  case h_2 => rfl
  case h_1 => split <;> rfl

@[simp] theorem removeIdle_config (candidates : List PeerKey) (reg : CircuitBreakerRegistry) :
    (reg.removeIdle idleThreshold now candidates).2.config = reg.config := by
  induction candidates generalizing reg with
  | nil => rfl
  | cons peer rest ih => exact (ih _).trans (removeIfIdle_config ..)

theorem removeIfIdle_lookup (reg : CircuitBreakerRegistry) (peer other : PeerKey) :
    (reg.removeIfIdle idleThreshold now peer).2.breakers.lookup other = reg.breakers.lookup other ∨
      ∃ cb, reg.breakers.lookup other = some cb ∧ cb.isIdle reg.config idleThreshold now = true ∧
        (reg.removeIfIdle idleThreshold now peer).2.breakers.lookup other = none := by
  rw [CircuitBreakerRegistry.removeIfIdle]
  split
  case h_2 => exact .inl rfl
  case h_1 cb hcb =>
    split
    case isFalse => exact .inl rfl
    case isTrue hidle =>
      by_cases hpeer : other = peer
      · subst hpeer
        exact .inr ⟨cb, hcb, hidle, AList.lookup_erase other reg.breakers⟩
      · exact .inl (AList.lookup_erase_ne hpeer)

theorem removeIdle_lookup (other : PeerKey) : ∀ (reg : CircuitBreakerRegistry) (candidates : List PeerKey),
    (reg.removeIdle idleThreshold now candidates).2.breakers.lookup other = reg.breakers.lookup other ∨
      ∃ cb, reg.breakers.lookup other = some cb ∧ cb.isIdle reg.config idleThreshold now = true ∧
        (reg.removeIdle idleThreshold now candidates).2.breakers.lookup other = none
  | _, [] => .inl rfl
  | reg, peer :: rest => by
    have hrest := removeIdle_lookup other (reg.removeIfIdle idleThreshold now peer).2 rest
    rw [removeIfIdle_config] at hrest
    rcases removeIfIdle_lookup idleThreshold now reg peer other with hsame | ⟨cb, hcb, hidle, hnone⟩
    · rcases hrest with hsame' | ⟨cb, hcb, hidle, hnone⟩
      · exact .inl (hsame'.trans hsame)
      · exact .inr ⟨cb, hsame.symm.trans hcb, hidle, hnone⟩
    · rcases hrest with hsame' | ⟨cb', hcb', -, -⟩
      · exact .inr ⟨cb, hcb, hidle, hsame'.trans hnone⟩
      · rw [hnone] at hcb'
        cases hcb'

end

/-! ## Histories that meet the conditions -/

/-- No half-open breaker is left without a request in flight, as one is whose probe was released;
or the threshold leaves the probe its time. -/
def ProbesSafe (s : RegistrySys) (idleThreshold : Nat) : Prop :=
  s.registry.config.halfOpenTimeout ≤ idleThreshold ∨
    ∀ peer cb, s.registry.breakers.lookup peer = some cb → cb.inner.state = .halfOpen → 0 < cb.inner.inFlight

/-- The in-flight count does not saturate, and a token is handed back for the peer it was issued for. -/
def Meets (s : RegistrySys) (e : RegistryEvent) : Prop :=
  match e.call with
  | .tryAcquire peer => ∀ cb, s.registry.breakers.lookup peer = some cb → cb.inner.inFlight < U32_MAX
  | .recordSuccess peer held => held.peer = peer
  | .recordFailure peer held => held.peer = peer
  | .release peer held => held.peer = peer
  | .drop _ => True
  | .evictIdle idleThreshold => ProbesSafe s idleThreshold
  | .removeIdle _ idleThreshold => ProbesSafe s idleThreshold

/-- The requests in flight at a peer, as its breaker counts them. -/
def CircuitBreakerRegistry.inFlight (reg : CircuitBreakerRegistry) (peer : PeerKey) : Nat :=
  ((reg.breakers.lookup peer).map (·.inner.inFlight)).getD 0

/-- The tokens outstanding for a peer. -/
def outstanding (peer : PeerKey) (held : List PeerToken) : Nat := held.countP fun h => decide (h.peer = peer)

theorem outstanding_cons {peer : PeerKey} (h : PeerToken) (held : List PeerToken) :
    outstanding peer (h :: held) = outstanding peer held + if h.peer = peer then 1 else 0 := by
  rw [outstanding, List.countP_cons, outstanding]
  simp only [decide_eq_true_eq]

theorem outstanding_erase {h : PeerToken} {held : List PeerToken} (hmem : h ∈ held) (peer : PeerKey) :
    outstanding peer held = outstanding peer (held.erase h) + if h.peer = peer then 1 else 0 := by
  rw [← outstanding_cons]
  exact (List.perm_cons_erase hmem).countP_eq _

/-- Every outstanding token is counted by the breaker of its peer. -/
structure RegistryInv (s : RegistrySys) : Prop where
  ok : ∀ peer cb, s.registry.breakers.lookup peer = some cb → BreakerOk s.clock cb
  counted : ∀ peer, outstanding peer s.held ≤ s.registry.inFlight peer

theorem registryInv_new (cfg : CircuitBreakerConfig) (start : Nat) : RegistryInv (.new cfg start) :=
  ⟨nofun, fun _ => Nat.zero_le _⟩

section

variable {s t : RegistrySys} {now : Nat} {cb : CircuitBreaker} {peer : PeerKey} {held : PeerToken}

theorem inFlight_handed {cb' : CircuitBreaker} {token : CircuitToken} {success : Bool}
    (hhanded : Handed cb token now success cb') : cb'.inner.inFlight = cb.inner.inFlight - 1 := by
  cases hhanded <;> rfl

theorem registryInv_insert (h : RegistryInv s) (hle : s.clock ≤ now) (hok : BreakerOk now cb) {held : List PeerToken}
    (hothers : ∀ other, other ≠ peer → outstanding other held ≤ outstanding other s.held)
    (hpeer : outstanding peer held ≤ cb.inner.inFlight) :
    RegistryInv ⟨{ s.registry with breakers := s.registry.breakers.insert peer cb }, held, now⟩ := by
  constructor
  · intro other found hfound
    by_cases hother : other = peer
    · subst hother
      obtain rfl := some.inj ((AList.lookup_insert _).symm.trans hfound)
      exact hok
    · exact (h.ok other found ((AList.lookup_insert_ne hother).symm.trans hfound)).mono hle
  · intro other
    rw [CircuitBreakerRegistry.inFlight]
    by_cases hother : other = peer
    · subst hother
      rw [AList.lookup_insert]
      exact hpeer
    · rw [AList.lookup_insert_ne hother]
      exact le_trans (hothers other hother) (h.counted other)

theorem breaker_of_held (h : RegistryInv s) (hmem : held ∈ s.held) :
    ∃ cb, s.registry.breakers.lookup held.peer = some cb ∧ outstanding held.peer s.held ≤ cb.inner.inFlight ∧
      0 < outstanding held.peer s.held := by
  have hpos : 0 < outstanding held.peer s.held := List.countP_pos_iff.2 ⟨held, hmem, decide_eq_true rfl⟩
  have hcounted := h.counted held.peer
  rw [CircuitBreakerRegistry.inFlight] at hcounted
  rcases hlookup : s.registry.breakers.lookup held.peer with _ | cb
  · rw [hlookup, map_none, getD_none] at hcounted
    omega
  · rw [hlookup, map_some, getD_some] at hcounted
    exact ⟨cb, rfl, hcounted, hpos⟩

theorem registryInv_modify (h : RegistryInv s) (hle : s.clock ≤ now) (hheld : held ∈ s.held)
    {f : CircuitBreaker → CircuitBreaker} (hok : ∀ cb, BreakerOk s.clock cb → BreakerOk now (f cb))
    (hcount : ∀ cb, (f cb).inner.inFlight = cb.inner.inFlight - 1) :
    RegistryInv ⟨s.registry.modify held.peer f, s.held.erase held, now⟩ := by
  obtain ⟨cb, hcb, hcounted, -⟩ := breaker_of_held h hheld
  have herase := outstanding_erase hheld
  rw [CircuitBreakerRegistry.modify, hcb]
  refine registryInv_insert h hle (hok cb (h.ok _ cb hcb)) (fun other _ => ?_) ?_
  · rw [herase other]
    exact Nat.le_add_right _ _
  · rw [herase held.peer, if_pos rfl] at hcounted
    rw [hcount]
    omega

theorem inFlight_tryAcquire (cfg : CircuitBreakerConfig) (cb : CircuitBreaker) (now : Nat) :
    (cb.tryAcquire cfg now).2.inner.inFlight =
      if (cb.tryAcquire cfg now).1.isAllowed then saturatingSucc cb.inner.inFlight else cb.inner.inFlight := by
  rcases tryAcquire_cases cb cfg now with ⟨-, heq⟩ | ⟨-, heq⟩ | ⟨-, heq⟩ <;> rw [heq] <;> rfl

theorem registryInv_tryAcquire (h : RegistryInv s) (hle : s.clock ≤ now)
    (hroom : ∀ cb, s.registry.breakers.lookup peer = some cb → cb.inner.inFlight < U32_MAX)
    (hcall : s.call now (.tryAcquire peer) = some t) : RegistryInv t := by
  obtain ⟨cb, hcb⟩ : ∃ cb, cb = (s.registry.breakers.lookup peer).getD (.new now) := ⟨_, rfl⟩
  have hok : BreakerOk now cb ∧ cb.inner.inFlight < U32_MAX ∧ s.registry.inFlight peer = cb.inner.inFlight := by
    rw [hcb, CircuitBreakerRegistry.inFlight]
    rcases hlookup : s.registry.breakers.lookup peer with _ | found
    · exact ⟨breakerOk_new now, by change 0 < U32_MAX; decide, rfl⟩
    · exact ⟨(h.ok peer found hlookup).mono hle, hroom found hlookup, rfl⟩
  have hcounted := h.counted peer
  have hok' := breakerOk_tryAcquire s.registry.config hok.1 (Nat.le_refl now)
  have hcount := inFlight_tryAcquire s.registry.config cb now
  rw [RegistrySys.call, CircuitBreakerRegistry.tryAcquire, ← hcb] at hcall
  rcases hacquire : cb.tryAcquire s.registry.config now with ⟨check, cb'⟩
  rw [hacquire] at hcall hok' hcount
  change BreakerOk now cb' at hok'
  change cb'.inner.inFlight = _ at hcount
  cases check with
  | allowed token =>
    cases hcall
    refine registryInv_insert h hle hok' (fun other hother => ?_) ?_
    · rw [outstanding_cons, if_neg (Ne.symm hother), Nat.add_zero]
    · rw [outstanding_cons, if_pos rfl]
      simp only [CircuitCheck.isAllowed, if_true, saturatingSucc] at hcount
      omega
  | rejected =>
    cases hcall
    refine registryInv_insert h hle hok' (fun other _ => Nat.le_refl _) ?_
    simp only [CircuitCheck.isAllowed, false_eq_true, if_false] at hcount
    omega

/-- What is removed was idle, so nothing of it is outstanding. -/
theorem registryInv_removeIdle (h : RegistryInv s) (hle : s.clock ≤ now) (idleThreshold : Nat) (candidates : List PeerKey) :
    RegistryInv ⟨(s.registry.removeIdle idleThreshold now candidates).2, s.held, now⟩ := by
  constructor
  · intro peer cb hcb
    rcases removeIdle_lookup idleThreshold now peer s.registry candidates with hsame | ⟨_, -, -, hnone⟩
    · exact (h.ok peer cb (hsame.symm.trans hcb)).mono hle
    · exact absurd (hnone.symm.trans hcb) nofun
  · intro peer
    have hcounted := h.counted peer
    rw [CircuitBreakerRegistry.inFlight] at hcounted ⊢
    rcases removeIdle_lookup idleThreshold now peer s.registry candidates with hsame | ⟨cb, hcb, hidle, -⟩
    · rw [hsame]
      exact hcounted
    · rw [CircuitBreaker.isIdle, and_eq_true, and_eq_true, decide_eq_true_eq] at hidle
      rw [hcb, map_some, getD_some, hidle.1.1] at hcounted
      exact le_trans hcounted (Nat.zero_le _)

theorem registryInv_step {e : RegistryEvent} (h : RegistryInv s) (hmeets : Meets s e) (hstep : registryStep s e = some t) :
    RegistryInv t := by
  obtain ⟨now, call⟩ := e
  rw [registryStep] at hstep
  split at hstep
  case isFalse => cases hstep
  case isTrue hle =>
    have hconsume : ∀ {held : PeerToken} {reg : CircuitBreakerRegistry}, s.consume held reg now = some t →
        held ∈ s.held ∧ t = ⟨reg, s.held.erase held, now⟩ := by
      intro held reg hcall
      rw [RegistrySys.consume] at hcall
      split at hcall
      case isTrue hmem => exact ⟨hmem, (some.inj hcall).symm⟩
      case isFalse => cases hcall
    cases call with
    | tryAcquire peer => exact registryInv_tryAcquire h hle hmeets hstep
    | recordSuccess peer held =>
      obtain ⟨hmem, rfl⟩ := hconsume hstep
      obtain rfl : held.peer = peer := hmeets
      exact registryInv_modify h hle hmem (fun cb hok => breakerOk_handed hok hle (handed_recordSuccess cb held.token now))
        (fun cb => inFlight_handed (handed_recordSuccess cb held.token now))
    | recordFailure peer held =>
      obtain ⟨hmem, rfl⟩ := hconsume hstep
      obtain rfl : held.peer = peer := hmeets
      exact registryInv_modify h hle hmem (fun cb hok => breakerOk_handed hok hle (handed_recordFailure cb _ held.token now))
        (fun cb => inFlight_handed (handed_recordFailure cb _ held.token now))
    | release peer held =>
      obtain ⟨hmem, rfl⟩ := hconsume hstep
      obtain rfl : held.peer = peer := hmeets
      exact registryInv_modify h hle hmem (fun cb hok => breakerOk_release hok hle) (fun cb => rfl)
    | drop held =>
      obtain ⟨-, rfl⟩ := hconsume hstep
      exact ⟨fun peer cb hcb => (h.ok peer cb hcb).mono hle,
        fun peer => le_trans (List.Sublist.countP_le List.erase_sublist) (h.counted peer)⟩
    | evictIdle idleThreshold =>
      cases hstep
      exact registryInv_removeIdle h hle idleThreshold _
    | removeIdle candidates idleThreshold =>
      cases hstep
      exact registryInv_removeIdle h hle idleThreshold candidates

end

/-! ## Eviction cannot be seen -/

/-- The eviction keeps the breaker of every outstanding token, and refuses whom the registry refused. -/
structure Invisible (before after : CircuitBreakerRegistry) (held : List PeerToken) (now : Nat) : Prop where
  kept : ∀ h ∈ held, after.breakers.lookup h.peer = before.breakers.lookup h.peer
  precheck : ∀ peer, before.precheck peer now = false → after.precheck peer now = false
  refused : ∀ peer, (before.tryAcquire peer now).1 = .rejected → (after.tryAcquire peer now).1 = .rejected

theorem invisible_removeIdle {s : RegistrySys} (h : RegistryInv s) {idleThreshold now : Nat} (hsafe : ProbesSafe s idleThreshold)
    (candidates : List PeerKey) :
    Invisible s.registry (s.registry.removeIdle idleThreshold now candidates).2 s.held now := by
  -- what is removed has nothing in flight and would admit
  have hremoved : ∀ peer, (s.registry.removeIdle idleThreshold now candidates).2.breakers.lookup peer =
      s.registry.breakers.lookup peer ∨ ∃ cb, s.registry.breakers.lookup peer = some cb ∧ BreakerOk s.clock cb ∧
        cb.inner.inFlight = 0 ∧ cb.precheck s.registry.config now = true := by
    intro peer
    rcases removeIdle_lookup idleThreshold now peer s.registry candidates with hsame | ⟨cb, hcb, hidle, -⟩
    · exact .inl hsame
    · have hok := h.ok peer cb hcb
      obtain ⟨hnone, hadmits⟩ := precheck_of_isIdle hok (hsafe.imp_right fun hbusy => hbusy peer cb hcb) hidle
      exact .inr ⟨cb, hcb, hok, hnone, hadmits⟩
  constructor
  · intro held hheld
    rcases hremoved held.peer with hsame | ⟨cb, hcb, -, hnone, -⟩
    · exact hsame
    · obtain ⟨found, hfound, hcounted, hpos⟩ := breaker_of_held h hheld
      cases hcb.symm.trans hfound
      omega
  · intro peer hrefuses
    rcases hremoved peer with hsame | ⟨cb, hcb, -, -, hadmits⟩
    · rw [CircuitBreakerRegistry.precheck, hsame, removeIdle_config]
      exact hrefuses
    · rw [CircuitBreakerRegistry.precheck, hcb, all_some, hadmits] at hrefuses
      cases hrefuses
  · intro peer hrefuses
    rcases hremoved peer with hsame | ⟨cb, hcb, hok, -, hadmits⟩
    · rw [CircuitBreakerRegistry.tryAcquire, hsame, removeIdle_config]
      exact hrefuses
    · rw [precheck_eq hok.mirrored] at hadmits
      rw [CircuitBreakerRegistry.tryAcquire, hcb, getD_some] at hrefuses
      rw [show (cb.tryAcquire s.registry.config now).1 = .rejected from hrefuses] at hadmits
      cases hadmits

/-- In a history that meets the conditions no eviction can be seen. -/
theorem eviction_invisible (cfg : CircuitBreakerConfig) (start : Nat) (events : List RegistryEvent)
    (hmeets : Along registryStep Meets (.new cfg start) events) :
    Along registryStep (fun s e =>
      (∀ idleThreshold, e.call = .evictIdle idleThreshold →
        Invisible s.registry (s.registry.evictIdle idleThreshold e.now).2 s.held e.now) ∧
      ∀ candidates idleThreshold, e.call = .removeIdle candidates idleThreshold →
        Invisible s.registry (s.registry.removeIdle idleThreshold e.now candidates).2 s.held e.now)
      (.new cfg start) events := by
  refine Along.of_invariant (I := RegistryInv) (G := Meets) ?_ (fun _ _ _ h hmeets hstep => registryInv_step h hmeets hstep)
    (registryInv_new cfg start) hmeets
  intro s e h hmeets
  constructor
  · intro idleThreshold hcall
    rw [Meets, hcall] at hmeets
    exact invisible_removeIdle h hmeets _
  · intro candidates idleThreshold hcall
    rw [Meets, hcall] at hmeets
    exact invisible_removeIdle h hmeets candidates

/-! A breaker opens, its probe is cancelled and released, and an eviction comes before the probe
times out. -/

def somePeer : PeerKey := ⟨⟨[10, 0, 0, 1], 443⟩, ""⟩

def cancelledProbe : List RegistryEvent :=
  [⟨0, .tryAcquire somePeer⟩, ⟨1, .recordFailure somePeer ⟨somePeer, ⟨0⟩⟩⟩, ⟨11, .tryAcquire somePeer⟩,
   ⟨12, .release somePeer ⟨somePeer, ⟨1⟩⟩⟩]

/-- The peer is refused before the eviction and admitted after it. -/
theorem released_probe_evicted :
    (run registryStep (.new ⟨1, 10, 100⟩ 0) cancelledProbe).map (fun s =>
      (s.registry.precheck somePeer 40, (s.registry.evictIdle 20 40).1, (s.registry.evictIdle 20 40).2.precheck somePeer 40)) =
      some (false, 1, true) := by
  decide

/-- A breaker that is open in its recovery window stays. -/
theorem open_breaker_kept : ∃ s, run registryStep (.new ⟨1, 10, 100⟩ 0) (cancelledProbe.take 2) = some s ∧
    s.registry.precheck somePeer 5 = false ∧ (s.registry.evictIdle 100 5).2.precheck somePeer 5 = false := by
  obtain ⟨s, hs⟩ : ∃ s, run registryStep (.new ⟨1, 10, 100⟩ 0) (cancelledProbe.take 2) = some s := ⟨_, rfl⟩
  have hprecheck : (run registryStep (.new ⟨1, 10, 100⟩ 0) (cancelledProbe.take 2)).map (·.registry.precheck somePeer 5) =
      some false := by decide
  rw [hs] at hprecheck
  have hmeets : Along registryStep Meets (.new ⟨1, 10, 100⟩ 0) (cancelledProbe.take 2 ++ [⟨5, .evictIdle 100⟩]) := by
    refine ⟨nofun, fun t ht => ⟨rfl, fun u hu => ⟨.inl ?_, fun _ _ => trivial⟩⟩⟩
    cases ht
    cases hu
    exact le_rfl
  have halong := (eviction_invisible ⟨1, 10, 100⟩ 0 _ hmeets).after hs
  refine ⟨s, hs, some.inj hprecheck, ?_⟩
  exact (halong.1.1 100 rfl).precheck somePeer (some.inj hprecheck)

end Praxis.Circuit
