/-
The circuit breaker of the sub-request path. A call is one critical section of its mutex, with the
clock reading that it takes. Instants and durations are nanoseconds; `duration_since` of a later
instant is zero, as the subtraction of `Nat` is.
-/
import Mathlib.Algebra.Ring.Nat

namespace Praxis.Circuit

def U32_MAX : Nat := 2 ^ 32 - 1

/-- `u32::saturating_add(1)`. -/
def saturatingSucc (n : Nat) : Nat := min (n + 1) U32_MAX

inductive CircuitState where
  | closed
  | opened
  | halfOpen
deriving Repr, DecidableEq

def CircuitState.toCache : CircuitState → Nat
  | .closed => 0
  | .opened => 1
  | .halfOpen => 2

def CircuitState.fromCache : Nat → CircuitState
  | 1 => .opened
  | 2 => .halfOpen
  | _ => .closed

@[simp] theorem CircuitState.fromCache_toCache (state : CircuitState) : fromCache state.toCache = state := by
  cases state <;> rfl

structure CircuitToken where
  generation : Nat
deriving Repr, DecidableEq

inductive CircuitCheck where
  | allowed (token : CircuitToken)
  | rejected
deriving Repr, DecidableEq

def CircuitCheck.isAllowed : CircuitCheck → Bool
  | .allowed _ => true
  | .rejected => false

structure CircuitBreakerConfig where
  threshold : Nat
  recoveryWindow : Nat
  halfOpenTimeout : Nat
deriving Repr, DecidableEq

structure CircuitInner where
  consecutiveFailures : Nat
  halfOpenedAt : Option Nat
  openedAt : Option Nat
  lastActivity : Nat
  inFlight : Nat
  state : CircuitState
  generation : Nat
deriving Repr, DecidableEq

structure CircuitBreaker where
  inner : CircuitInner
  stateCache : Nat
deriving Repr, DecidableEq

/-- `now.duration_since(start) >= limit`, of an instant that may be missing. -/
def elapsedAtLeast (start : Option Nat) (now : Nat) (limit : Nat) : Bool :=
  start.any fun start => decide (limit ≤ now - start)

namespace CircuitInner

def issueToken (inner : CircuitInner) (now : Nat) : CircuitCheck × CircuitInner :=
  (.allowed ⟨inner.generation⟩, { inner with inFlight := saturatingSucc inner.inFlight, lastActivity := now })

def releaseToken (inner : CircuitInner) : CircuitInner := { inner with inFlight := inner.inFlight - 1 }

def transitionToHalfOpen (inner : CircuitInner) (now : Nat) : CircuitCheck × CircuitInner :=
  issueToken
    { inner with generation := (inner.generation + 1) % 2 ^ 64, state := .halfOpen, halfOpenedAt := some now } now

def tryOpenToHalfOpen (inner : CircuitInner) (cfg : CircuitBreakerConfig) (now : Nat) : CircuitCheck × CircuitInner :=
  if elapsedAtLeast inner.openedAt now cfg.recoveryWindow then inner.transitionToHalfOpen now else (.rejected, inner)

def tryResetStaleProbe (inner : CircuitInner) (cfg : CircuitBreakerConfig) (now : Nat) : CircuitCheck × CircuitInner :=
  if elapsedAtLeast inner.halfOpenedAt now cfg.halfOpenTimeout then inner.transitionToHalfOpen now
  else (.rejected, inner)

end CircuitInner

namespace CircuitBreaker

/-- `store_state_cache`, at the end of a critical section. -/
def store (inner : CircuitInner) : CircuitBreaker := { inner := inner, stateCache := inner.state.toCache }

variable (cb : CircuitBreaker) (cfg : CircuitBreakerConfig)

def cachedState : CircuitState := .fromCache cb.stateCache

def new (now : Nat) : CircuitBreaker :=
  { inner :=
      { consecutiveFailures := 0, halfOpenedAt := none, openedAt := none, lastActivity := now, inFlight := 0
        state := .closed, generation := 0 }
    stateCache := CircuitState.closed.toCache }

def precheck (now : Nat) : Bool :=
  if cb.cachedState = .closed then true
  else
    match cb.inner.state with
    | .closed => true
    | .opened => elapsedAtLeast cb.inner.openedAt now cfg.recoveryWindow
    | .halfOpen => elapsedAtLeast cb.inner.halfOpenedAt now cfg.halfOpenTimeout

def tryAcquire (now : Nat) : CircuitCheck × CircuitBreaker :=
  let inner := { cb.inner with lastActivity := now }
  let (check, inner) :=
    match inner.state with
    | .closed => inner.issueToken now
    | .opened => inner.tryOpenToHalfOpen cfg now
    | .halfOpen => inner.tryResetStaleProbe cfg now
  (check, store inner)

/-- `record_success`. A stale token returns before the cache is written. -/
def recordSuccess (token : CircuitToken) (now : Nat) : CircuitBreaker :=
  let inner := cb.inner.releaseToken
  if token.generation ≠ inner.generation then { cb with inner := inner }
  else
    let inner := { inner with lastActivity := now }
    match inner.state with
    | .closed => store { inner with consecutiveFailures := 0 }
    | .halfOpen => store { inner with state := .closed, consecutiveFailures := 0, halfOpenedAt := none, openedAt := none }
    | .opened => store inner

def recordFailure (token : CircuitToken) (now : Nat) : CircuitBreaker :=
  let inner := cb.inner.releaseToken
  if token.generation ≠ inner.generation then { cb with inner := inner }
  else
    let inner := { inner with lastActivity := now }
    match inner.state with
    | .closed =>
      let inner := { inner with consecutiveFailures := saturatingSucc inner.consecutiveFailures }
      if cfg.threshold ≤ inner.consecutiveFailures then store { inner with state := .opened, openedAt := some now }
      else store inner
    | .halfOpen => store { inner with state := .opened, openedAt := some now, halfOpenedAt := none }
    | .opened => store inner

def release : CircuitBreaker := store cb.inner.releaseToken

def isIdle (idleThreshold : Nat) (now : Nat) : Bool :=
  let openInRecoveryWindow := decide (cb.inner.state = .opened) &&
    cb.inner.openedAt.any fun openedAt => decide (now - openedAt < cfg.recoveryWindow)
  decide (cb.inner.inFlight = 0) && !openInRecoveryWindow && decide (idleThreshold ≤ now - cb.inner.lastActivity)

end CircuitBreaker

/-! ## What a call can do -/

variable {cfg : CircuitBreakerConfig} {cb : CircuitBreaker} {now : Nat}

/-- `try_acquire` admits in the closed state, starts a generation with a probe, or refuses. -/
theorem tryAcquire_cases (cb : CircuitBreaker) (cfg : CircuitBreakerConfig) (now : Nat) :
    (cb.inner.state = .closed ∧ cb.tryAcquire cfg now = (.allowed ⟨cb.inner.generation⟩,
      .store { cb.inner with inFlight := saturatingSucc cb.inner.inFlight, lastActivity := now })) ∨
    (((cb.inner.state = .opened ∧ elapsedAtLeast cb.inner.openedAt now cfg.recoveryWindow = true) ∨
        (cb.inner.state = .halfOpen ∧ elapsedAtLeast cb.inner.halfOpenedAt now cfg.halfOpenTimeout = true)) ∧
      cb.tryAcquire cfg now = (.allowed ⟨(cb.inner.generation + 1) % 2 ^ 64⟩,
        .store { cb.inner with
          generation := (cb.inner.generation + 1) % 2 ^ 64, state := .halfOpen, halfOpenedAt := some now
          inFlight := saturatingSucc cb.inner.inFlight, lastActivity := now })) ∨
    (((cb.inner.state = .opened ∧ elapsedAtLeast cb.inner.openedAt now cfg.recoveryWindow = false) ∨
        (cb.inner.state = .halfOpen ∧ elapsedAtLeast cb.inner.halfOpenedAt now cfg.halfOpenTimeout = false)) ∧
      cb.tryAcquire cfg now = (.rejected, .store { cb.inner with lastActivity := now })) := by
  rcases hstate : cb.inner.state
  case closed =>
    refine .inl ⟨rfl, ?_⟩
    rw [CircuitBreaker.tryAcquire]
    simp only [hstate]
    rfl
  case opened =>
    right
    rcases helapsed : elapsedAtLeast cb.inner.openedAt now cfg.recoveryWindow
    · refine .inr ⟨.inl ⟨rfl, rfl⟩, ?_⟩
      rw [CircuitBreaker.tryAcquire]
      simp only [hstate, CircuitInner.tryOpenToHalfOpen, helapsed, Bool.false_eq_true, if_false]
    · refine .inl ⟨.inl ⟨rfl, rfl⟩, ?_⟩
      rw [CircuitBreaker.tryAcquire]
      simp only [hstate, CircuitInner.tryOpenToHalfOpen, helapsed, if_true]
      rfl
  case halfOpen =>
    right
    rcases helapsed : elapsedAtLeast cb.inner.halfOpenedAt now cfg.halfOpenTimeout
    · refine .inr ⟨.inr ⟨rfl, rfl⟩, ?_⟩
      rw [CircuitBreaker.tryAcquire]
      simp only [hstate, CircuitInner.tryResetStaleProbe, helapsed, Bool.false_eq_true, if_false]
    · refine .inl ⟨.inr ⟨rfl, rfl⟩, ?_⟩
      rw [CircuitBreaker.tryAcquire]
      simp only [hstate, CircuitInner.tryResetStaleProbe, helapsed, if_true]
      rfl

/-- What a token makes of the breaker when it is handed back, with a success or a failure. A token of another
generation changes nothing but the count of requests in flight. One of the current generation counts in the
closed state, opens the breaker, closes it after the probe, or comes too late. -/
inductive Handed (cb : CircuitBreaker) (token : CircuitToken) (now : Nat) (success : Bool) : CircuitBreaker → Prop where
  | stale (h : token.generation ≠ cb.inner.generation) : Handed cb token now success { cb with inner := cb.inner.releaseToken }
  | counts (h : token.generation = cb.inner.generation) (hstate : cb.inner.state = .closed) (failures : Nat) :
    Handed cb token now success
      (.store { cb.inner.releaseToken with lastActivity := now, consecutiveFailures := failures })
  | opens (h : token.generation = cb.inner.generation) (hstate : cb.inner.state ≠ .opened) (failures : Nat)
      (halfOpenedAt : Option Nat) :
    Handed cb token now success (.store { cb.inner.releaseToken with
      lastActivity := now, consecutiveFailures := failures, state := .opened, openedAt := some now, halfOpenedAt })
  | closes (h : token.generation = cb.inner.generation) (hstate : cb.inner.state = .halfOpen) (hsuccess : success = true) :
    Handed cb token now success (.store { cb.inner.releaseToken with
      lastActivity := now, state := .closed, consecutiveFailures := 0, halfOpenedAt := none, openedAt := none })
  | late (h : token.generation = cb.inner.generation) (hstate : cb.inner.state = .opened) :
    Handed cb token now success (.store { cb.inner.releaseToken with lastActivity := now })

theorem handed_recordSuccess (cb : CircuitBreaker) (token : CircuitToken) (now : Nat) :
    Handed cb token now true (cb.recordSuccess token now) := by
  unfold CircuitBreaker.recordSuccess
  dsimp only
  split
  case isTrue hstale => exact .stale hstale
  case isFalse hcurrent =>
    have hcurrent := not_not.1 hcurrent
    split
    case h_1 hstate => exact .counts hcurrent hstate 0
    case h_2 hstate => exact .closes hcurrent hstate rfl
    case h_3 hstate => exact .late hcurrent hstate

theorem handed_recordFailure (cb : CircuitBreaker) (cfg : CircuitBreakerConfig) (token : CircuitToken) (now : Nat) :
    Handed cb token now false (cb.recordFailure cfg token now) := by
  unfold CircuitBreaker.recordFailure
  dsimp only
  split
  case isTrue hstale => exact .stale hstale
  case isFalse hcurrent =>
    have hcurrent := not_not.1 hcurrent
    split
    case h_1 hstate =>
      have hne : cb.inner.state ≠ .opened := by
        rw [show cb.inner.state = .closed from hstate]
        decide
      split
      · exact .opens hcurrent hne _ _
      · exact .counts hcurrent hstate _
    case h_2 hstate =>
      refine .opens hcurrent ?_ _ _
      rw [show cb.inner.state = .halfOpen from hstate]
      decide
    case h_3 hstate => exact .late hcurrent hstate

/-! ## The mirror of the state -/

/-- The lock-free mirror shows the state. -/
def CircuitBreaker.Mirrored (cb : CircuitBreaker) : Prop := cb.stateCache = cb.inner.state.toCache

theorem mirrored_store (inner : CircuitInner) : (CircuitBreaker.store inner).Mirrored := rfl

theorem mirrored_new (now : Nat) : (CircuitBreaker.new now).Mirrored := rfl

theorem precheck_eq (h : cb.Mirrored) : cb.precheck cfg now = (cb.tryAcquire cfg now).1.isAllowed := by
  have hcached : cb.cachedState = cb.inner.state := by
    rw [CircuitBreaker.cachedState, h, CircuitState.fromCache_toCache]
  rw [CircuitBreaker.precheck, hcached]
  rcases tryAcquire_cases cb cfg now with ⟨hstate, heq⟩ | ⟨⟨hstate, helapsed⟩ | ⟨hstate, helapsed⟩, heq⟩ |
      ⟨⟨hstate, helapsed⟩ | ⟨hstate, helapsed⟩, heq⟩
  · rw [if_pos hstate, heq]
    rfl
  all_goals
    rw [hstate, heq]
    exact helapsed

end Praxis.Circuit
