/-
The breaker among its callers. Every call is an event with the clock reading it takes; a caller
that holds a token can hand it back later or drop it. The generation counter wraps at 64 bits, so
a token that is held through that many generations looks new again.
-/
import Praxis.Circuit.Breaker
import Praxis.Lib.Machine
import Mathlib.Data.List.Pairwise

namespace Praxis.Circuit

open CircuitBreaker List Option Nat Praxis.Lib

/-! ## Events -/

/-- A token in the hands of a caller. `epoch` counts the generations begun when it was issued. -/
structure Held where
  token : CircuitToken
  epoch : Nat
deriving Repr, DecidableEq

inductive Call where
  | tryAcquire
  | recordSuccess (held : Held)
  | recordFailure (held : Held)
  | release (held : Held)
  | drop (held : Held)
deriving Repr, DecidableEq

/-- The token that a call consumes. -/
def Call.held? : Call → Option Held
  | .tryAcquire => none
  | .recordSuccess held => some held
  | .recordFailure held => some held
  | .release held => some held
  | .drop held => some held

theorem tryAcquire_of_held {call : Call} (h : call.held? = none) : call = .tryAcquire := by
  cases call with
  | tryAcquire => rfl
  | recordSuccess | recordFailure | release | drop => cases h

structure Event where
  now : Nat
  call : Call
deriving Repr, DecidableEq

/-- The breaker, the tokens outstanding, and the number of generations begun. -/
structure Sys where
  breaker : CircuitBreaker
  held : List Held
  epoch : Nat
deriving Repr, DecidableEq

def Sys.new (start : Nat) : Sys := ⟨.new start, [], 0⟩

/-- A call that consumes a token needs one that is outstanding. -/
def Sys.consume (s : Sys) (held : Held) (breaker : CircuitBreaker) : Option Sys :=
  if held ∈ s.held then some { s with breaker := breaker, held := s.held.erase held } else none

def step (cfg : CircuitBreakerConfig) (s : Sys) (e : Event) : Option Sys :=
  match e.call with
  | .tryAcquire =>
    match s.breaker.tryAcquire cfg e.now with
    | (.allowed token, breaker) =>
      -- outside the closed state a token comes with a new generation
      let epoch := if s.breaker.inner.state = .closed then s.epoch else s.epoch + 1
      some ⟨breaker, ⟨token, epoch⟩ :: s.held, epoch⟩
    | (.rejected, breaker) => some { s with breaker := breaker }
  | .recordSuccess held => s.consume held (s.breaker.recordSuccess held.token e.now)
  | .recordFailure held => s.consume held (s.breaker.recordFailure cfg held.token e.now)
  | .release held => s.consume held s.breaker.release
  | .drop held => s.consume held s.breaker

/-- The outstanding tokens of the current generation. -/
def Sys.current (s : Sys) : List Held := s.held.filter fun held => decide (held.token.generation = s.breaker.inner.generation)

/-- No token is held through a whole round of the generation counter. -/
def Sys.Fresh (s : Sys) : Prop := ∀ held ∈ s.held, s.epoch < held.epoch + 2 ^ 64

/-- The event issues a token. -/
def Issues (cfg : CircuitBreakerConfig) (s : Sys) (e : Event) : Prop :=
  e.call = .tryAcquire ∧ (s.breaker.tryAcquire cfg e.now).1.isAllowed = true

/-! ## Steps -/

section

variable {cfg : CircuitBreakerConfig} {s t : Sys} {e : Event} {held : Held} {call : Call}

theorem consume_eq_some {breaker : CircuitBreaker} (h : s.consume held breaker = some t) :
    held ∈ s.held ∧ t = ⟨breaker, s.held.erase held, s.epoch⟩ := by
  rw [Sys.consume] at h
  split at h
  case isTrue hmem => exact ⟨hmem, (some.inj h).symm⟩
  case isFalse => cases h

/-- The breaker after a token has been consumed. -/
def Call.apply (cfg : CircuitBreakerConfig) (cb : CircuitBreaker) (now : Nat) : Call → CircuitBreaker
  | .tryAcquire => cb
  | .recordSuccess held => cb.recordSuccess held.token now
  | .recordFailure held => cb.recordFailure cfg held.token now
  | .release _ => cb.release
  | .drop _ => cb

theorem step_held (hcall : e.call.held? = some held) (h : step cfg s e = some t) :
    held ∈ s.held ∧ t = ⟨e.call.apply cfg s.breaker e.now, s.held.erase held, s.epoch⟩ := by
  rw [step] at h
  rcases hc : e.call with _ | held' | held' | held' | held' <;> rw [hc] at hcall h
  case tryAcquire => cases hcall
  all_goals
    cases hcall
    exact consume_eq_some h

/-- A token is issued in the closed state or with a new generation, or the call is refused. -/
theorem step_tryAcquire (hcall : e.call = .tryAcquire) (h : step cfg s e = some t) :
    (s.breaker.inner.state = .closed ∧ t = ⟨.store { s.breaker.inner with
        inFlight := saturatingSucc s.breaker.inner.inFlight, lastActivity := e.now },
      ⟨⟨s.breaker.inner.generation⟩, s.epoch⟩ :: s.held, s.epoch⟩) ∨
    (((s.breaker.inner.state = .opened ∧ elapsedAtLeast s.breaker.inner.openedAt e.now cfg.recoveryWindow = true) ∨
        s.breaker.inner.state = .halfOpen) ∧
      t = ⟨.store { s.breaker.inner with
          generation := (s.breaker.inner.generation + 1) % 2 ^ 64, state := .halfOpen, halfOpenedAt := some e.now
          inFlight := saturatingSucc s.breaker.inner.inFlight, lastActivity := e.now },
        ⟨⟨(s.breaker.inner.generation + 1) % 2 ^ 64⟩, s.epoch + 1⟩ :: s.held, s.epoch + 1⟩) ∨
    (¬ Issues cfg s e ∧ s.breaker.inner.state ≠ .closed ∧
      t = { s with breaker := .store { s.breaker.inner with lastActivity := e.now } }) := by
  rw [step, hcall] at h
  rcases tryAcquire_cases s.breaker cfg e.now with ⟨hstate, heq⟩ | ⟨hstate, heq⟩ | ⟨hstate, heq⟩
  · simp only [heq] at h
    rw [if_pos hstate] at h
    exact .inl ⟨hstate, (some.inj h).symm⟩
  · have hne : s.breaker.inner.state ≠ .closed := by
      rcases hstate with hstate | hstate <;> rw [hstate.1] <;> decide
    simp only [heq, hne, if_false] at h
    exact .inr (.inl ⟨hstate.imp_right And.left, (some.inj h).symm⟩)
  · have hne : s.breaker.inner.state ≠ .closed := by
      rcases hstate with hstate | hstate <;> rw [hstate.1] <;> decide
    simp only [heq] at h
    refine .inr (.inr ⟨?_, hne, (some.inj h).symm⟩)
    rintro ⟨-, hallowed⟩
    rw [heq] at hallowed
    cases hallowed

/-- State, failure count and timers are the same. -/
structure Kept (cb cb' : CircuitBreaker) : Prop where
  state : cb'.inner.state = cb.inner.state
  failures : cb'.inner.consecutiveFailures = cb.inner.consecutiveFailures
  openedAt : cb'.inner.openedAt = cb.inner.openedAt
  halfOpenedAt : cb'.inner.halfOpenedAt = cb.inner.halfOpenedAt

/-- What a consumed token does: nothing, or, if it is of the current generation, it counts in the closed
state, opens the breaker, or closes it after the probe. -/
def Consumed (cb : CircuitBreaker) (now : Nat) (call : Call) (held : Held) (cb' : CircuitBreaker) : Prop :=
  cb'.inner.generation = cb.inner.generation ∧ (Kept cb cb' ∨ (held.token.generation = cb.inner.generation ∧
    ((cb.inner.state = .closed ∧ cb'.inner.state = .closed) ∨
      (cb.inner.state ≠ .opened ∧ cb'.inner.state = .opened ∧ cb'.inner.openedAt = some now) ∨
      (cb.inner.state = .halfOpen ∧ cb'.inner.state = .closed ∧ call = .recordSuccess held))))

theorem consumed_of_handed {cb cb' : CircuitBreaker} {now : Nat} {success : Bool}
    (hhanded : Handed cb held.token now success cb') (hcall : success = true → call = .recordSuccess held) :
    Consumed cb now call held cb' := by
  cases hhanded with
  | stale | late => exact ⟨rfl, .inl ⟨rfl, rfl, rfl, rfl⟩⟩
  | counts hcurrent hstate => exact ⟨rfl, .inr ⟨hcurrent, .inl ⟨hstate, hstate⟩⟩⟩
  | opens hcurrent hstate => exact ⟨rfl, .inr ⟨hcurrent, .inr (.inl ⟨hstate, rfl, rfl⟩)⟩⟩
  | closes hcurrent hstate hsuccess => exact ⟨rfl, .inr ⟨hcurrent, .inr (.inr ⟨hstate, rfl, hcall hsuccess⟩)⟩⟩

theorem consumed_apply (cfg : CircuitBreakerConfig) (cb : CircuitBreaker) (now : Nat) (hcall : call.held? = some held) :
    Consumed cb now call held (call.apply cfg cb now) := by
  cases call with
  | tryAcquire => cases hcall
  | recordSuccess held' =>
    obtain rfl := some.inj hcall
    exact consumed_of_handed (handed_recordSuccess cb held'.token now) fun _ => rfl
  | recordFailure held' =>
    obtain rfl := some.inj hcall
    exact consumed_of_handed (handed_recordFailure cb cfg held'.token now) (by rintro ⟨⟩)
  | release | drop => exact ⟨rfl, .inl ⟨rfl, rfl, rfl, rfl⟩⟩

/-! ## Generations -/

/-- The counter and the tokens show the generation in which they are, and in the half-open state
one token at most is of the latest. -/
structure Inv (s : Sys) : Prop where
  generation : s.breaker.inner.generation = s.epoch % 2 ^ 64
  held : ∀ held ∈ s.held, held.epoch ≤ s.epoch ∧ held.token.generation = held.epoch % 2 ^ 64
  probe : s.breaker.inner.state = .halfOpen → s.held.countP (fun held => decide (held.epoch = s.epoch)) ≤ 1

theorem inv_new (start : Nat) : Inv (.new start) :=
  ⟨rfl, nofun, fun _ => zero_le _⟩

theorem countP_epoch_eq_zero (h : Inv s) : s.held.countP (fun held => decide (held.epoch = s.epoch + 1)) = 0 := by
  rw [countP_eq_zero]
  intro held hheld
  have hle := (h.held held hheld).1
  simp only [decide_eq_true_eq]
  omega

theorem inv_step (h : Inv s) (hstep : step cfg s e = some t) : Inv t := by
  rcases hcall : e.call.held? with _ | held
  · rcases step_tryAcquire (tryAcquire_of_held hcall) hstep with ⟨hstate, rfl⟩ | ⟨-, rfl⟩ | ⟨-, -, rfl⟩
    · refine ⟨h.generation, ?_, fun hopen => by cases hstate.symm.trans hopen⟩
      intro held hheld
      rcases hheld with _ | ⟨_, hheld⟩
      · exact ⟨le_rfl, h.generation⟩
      · exact h.held held hheld
    · -- the probe is the only token of the generation that begins
      have hgeneration : (s.breaker.inner.generation + 1) % 2 ^ 64 = (s.epoch + 1) % 2 ^ 64 := by
        rw [h.generation, mod_add_mod]
      refine ⟨hgeneration, ?_, fun _ => ?_⟩
      · intro held hheld
        rcases hheld with _ | ⟨_, hheld⟩
        · exact ⟨le_rfl, hgeneration⟩
        · exact ⟨le_succ_of_le (h.held held hheld).1, (h.held held hheld).2⟩
      · rw [countP_cons, countP_epoch_eq_zero h]
        split <;> decide
    · exact ⟨h.generation, h.held, h.probe⟩
  · obtain ⟨-, rfl⟩ := step_held hcall hstep
    obtain ⟨hgeneration, hcases⟩ := consumed_apply cfg s.breaker e.now hcall
    refine ⟨hgeneration.trans h.generation, fun held' hheld => h.held held' (mem_of_mem_erase hheld), fun hopen => ?_⟩
    have hbefore : s.breaker.inner.state = .halfOpen := by
      rcases hcases with hkept | ⟨-, ⟨-, hafter⟩ | ⟨-, hafter, -⟩ | ⟨hstate, -⟩⟩
      · exact hkept.state.symm.trans hopen
      · cases hafter.symm.trans hopen
      · cases hafter.symm.trans hopen
      · exact hstate
    exact le_trans (Sublist.countP_le erase_sublist) (h.probe hbefore)

theorem current_iff (h : Inv s) (hfresh : s.Fresh) (hheld : held ∈ s.held) :
    held.token.generation = s.breaker.inner.generation ↔ held.epoch = s.epoch := by
  obtain ⟨hle, htoken⟩ := h.held held hheld
  have hlt := hfresh held hheld
  rw [htoken, h.generation]
  constructor
  · intro heq
    omega
  · rintro heq
    rw [heq]

theorem current_length (h : Inv s) (hfresh : s.Fresh) (hstate : s.breaker.inner.state = .halfOpen) : s.current.length ≤ 1 := by
  have hsame : s.current.length = s.held.countP (fun held => decide (held.epoch = s.epoch)) := by
    rw [Sys.current, ← countP_eq_length_filter]
    refine countP_congr fun held hheld => ?_
    rw [decide_eq_true_eq, decide_eq_true_eq, current_iff h hfresh hheld]
  rw [hsame]
  exact h.probe hstate

/-! ## What holds at every event -/

/-- In the half-open state one token at most is of the current generation; only a success with
it closes the breaker; a token of an earlier generation changes nothing. -/
structure Protocol (cfg : CircuitBreakerConfig) (s : Sys) (e : Event) : Prop where
  one_probe : s.breaker.inner.state = .halfOpen → s.current.length ≤ 1
  closes : ∀ t, step cfg s e = some t → s.breaker.inner.state = .halfOpen → t.breaker.inner.state = .closed →
    ∃ held, e.call = .recordSuccess held ∧ s.current = [held]
  stale : ∀ t held, step cfg s e = some t → e.call.held? = some held → held.epoch < s.epoch → Kept s.breaker t.breaker

theorem protocol_of_inv (h : Inv s) (hfresh : s.Fresh) : Protocol cfg s e where
  one_probe := current_length h hfresh
  closes := by
    intro t hstep hstate hclosed
    rcases hcall : e.call.held? with _ | held
    · rcases step_tryAcquire (tryAcquire_of_held hcall) hstep with ⟨hother, -⟩ | ⟨-, rfl⟩ | ⟨-, -, rfl⟩
      · cases hstate.symm.trans hother
      · cases hclosed
      · cases hstate.symm.trans hclosed
    · obtain ⟨hmem, rfl⟩ := step_held hcall hstep
      obtain ⟨-, hcases⟩ := consumed_apply cfg s.breaker e.now hcall
      rcases hcases with hkept | ⟨hcurrent, ⟨hother, -⟩ | ⟨-, hafter, -⟩ | ⟨-, -, hsuccess⟩⟩
      · exact absurd (hstate.symm.trans (hkept.state.symm.trans hclosed)) (by decide)
      · cases hstate.symm.trans hother
      · cases hafter.symm.trans hclosed
      · refine ⟨held, hsuccess, ?_⟩
        have hin : held ∈ s.current := by
          rw [Sys.current, mem_filter]
          exact ⟨hmem, decide_eq_true hcurrent⟩
        have hone := current_length h hfresh hstate
        obtain ⟨first, rest, heq⟩ := exists_cons_of_ne_nil (ne_nil_of_mem hin)
        rw [heq, length_cons] at hone
        obtain rfl : rest = [] := eq_nil_of_length_eq_zero (by omega)
        rw [heq, mem_singleton] at hin
        rw [heq, hin]
  stale := by
    intro t held hstep hcall hold
    obtain ⟨hmem, rfl⟩ := step_held hcall hstep
    obtain ⟨-, hkept | ⟨hcurrent, -⟩⟩ := consumed_apply cfg s.breaker e.now hcall
    · exact hkept
    · have heq := (current_iff h hfresh hmem).1 hcurrent
      omega

/-! ## The recovery window -/

theorem along_window {opened : Nat} : ∀ {events : List Event} {s : Sys}, events.Pairwise (·.now ≤ ·.now) →
    (∀ e ∈ events, opened ≤ e.now) → s.breaker.inner.state = .opened → s.breaker.inner.openedAt = some opened →
    Along (step cfg) (fun s e => Issues cfg s e → opened + cfg.recoveryWindow ≤ e.now) s events
  | [], _, _, _, _, _ => trivial
  | e :: rest, s, hclock, hstart, hstate, htimer => by
    obtain ⟨hafter, hclock⟩ := pairwise_cons.1 hclock
    by_cases hover : opened + cfg.recoveryWindow ≤ e.now
    · -- later events read the clock later
      refine ⟨fun _ => hover, fun t _ => Along.of_forall fun e' he' _ _ => ?_⟩
      exact le_trans hover (hafter e' he')
    · have helapsed : elapsedAtLeast s.breaker.inner.openedAt e.now cfg.recoveryWindow = false := by
        have hle := hstart e (.head _)
        rw [htimer, elapsedAtLeast, any_some, decide_eq_false_iff_not]
        omega
      constructor
      · rintro ⟨-, hallowed⟩
        rcases tryAcquire_cases s.breaker cfg e.now with
          ⟨hother, -⟩ | ⟨⟨-, htrue⟩ | ⟨hother, -⟩, -⟩ | ⟨-, heq⟩
        · cases hstate.symm.trans hother
        · cases helapsed.symm.trans htrue
        · cases hstate.symm.trans hother
        · rw [heq] at hallowed
          cases hallowed
      · -- the breaker is still open, with the same timer
        intro t hstep
        have hkept : t.breaker.inner.state = .opened ∧ t.breaker.inner.openedAt = some opened := by
          rcases hcall : e.call.held? with _ | held
          · rcases step_tryAcquire (tryAcquire_of_held hcall) hstep with
              ⟨hother, -⟩ | ⟨⟨-, htrue⟩ | hother, -⟩ | ⟨-, -, rfl⟩
            · cases hstate.symm.trans hother
            · cases helapsed.symm.trans htrue
            · cases hstate.symm.trans hother
            · exact ⟨hstate, htimer⟩
          · obtain ⟨-, rfl⟩ := step_held hcall hstep
            obtain ⟨-, hkept | ⟨-, ⟨hother, -⟩ | ⟨hother, -⟩ | ⟨hother, -⟩⟩⟩ := consumed_apply cfg s.breaker e.now hcall
            · exact ⟨hkept.state.trans hstate, hkept.openedAt.trans htimer⟩
            · cases hstate.symm.trans hother
            · exact (hother hstate).elim
            · cases hstate.symm.trans hother
        exact along_window hclock (fun e' he' => hstart e' (.tail e he')) hkept.1 hkept.2

/-- The event that opens the breaker sets its timer. -/
theorem opened_by_step (hstep : step cfg s e = some t) (hstate : s.breaker.inner.state ≠ .opened)
    (hopened : t.breaker.inner.state = .opened) : t.breaker.inner.openedAt = some e.now := by
  rcases hcall : e.call.held? with _ | held
  · rcases step_tryAcquire (tryAcquire_of_held hcall) hstep with ⟨hother, rfl⟩ | ⟨-, rfl⟩ | ⟨-, -, rfl⟩
    · cases hother.symm.trans hopened
    · cases hopened
    · exact (hstate hopened).elim
  · obtain ⟨-, rfl⟩ := step_held hcall hstep
    obtain ⟨-, hkept | ⟨-, ⟨-, hafter⟩ | ⟨-, -, htimer⟩ | ⟨-, hafter, -⟩⟩⟩ := consumed_apply cfg s.breaker e.now hcall
    · exact (hstate (hkept.state.symm.trans hopened)).elim
    · cases hafter.symm.trans hopened
    · exact htimer
    · cases hafter.symm.trans hopened

end

/-! ## Runs -/

/-- As long as no token is held through a whole round of the generation counter, every event of
every run keeps the protocol; and from an event that opens the breaker on no token is issued until
the recovery window has elapsed. -/
theorem breaker_protocol (cfg : CircuitBreakerConfig) (start : Nat) (events : List Event)
    (hclock : events.Pairwise (·.now ≤ ·.now)) (hfresh : Along (step cfg) (fun s _ => s.Fresh) (.new start) events) :
    Along (step cfg) (Protocol cfg) (.new start) events ∧
      ∀ before e after s t, events = before ++ e :: after → run (step cfg) (.new start) before = some s →
        step cfg s e = some t → s.breaker.inner.state ≠ .opened → t.breaker.inner.state = .opened →
        Along (step cfg) (fun s' e' => Issues cfg s' e' → e.now + cfg.recoveryWindow ≤ e'.now) t after := by
  constructor
  · exact Along.of_invariant (I := Inv) (G := fun s _ => s.Fresh) (fun _ _ h hfresh => protocol_of_inv h hfresh)
      (fun _ _ _ h _ hstep => inv_step h hstep) (inv_new start) hfresh
  · rintro before e after s t rfl - hstep hstate hopened
    obtain ⟨hlater, hclock⟩ := pairwise_cons.1 (pairwise_append.1 hclock).2.1
    exact along_window hclock hlater hopened (opened_by_step hstep hstate hopened)

/-- Runs that are not too long have no such token. -/
theorem fresh_of_length {cfg : CircuitBreakerConfig} : ∀ {events : List Event} {s : Sys},
    s.epoch + events.length < 2 ^ 64 → Along (step cfg) (fun s _ => s.Fresh) s events
  | [], _, _ => trivial
  | e :: rest, s, hlen => by
    rw [length_cons] at hlen
    refine ⟨fun held _ => by omega, fun t hstep => fresh_of_length ?_⟩
    have hepoch : t.epoch ≤ s.epoch + 1 := by
      rcases hcall : e.call.held? with _ | held
      · rcases step_tryAcquire (tryAcquire_of_held hcall) hstep with ⟨-, rfl⟩ | ⟨-, rfl⟩ | ⟨-, -, rfl⟩
        · exact le_succ _
        · exact le_rfl
        · exact le_succ _
      · obtain ⟨-, rfl⟩ := step_held hcall hstep
        exact le_succ _
    omega

/-- A failure opens the breaker, a call in the window is refused, the probe closes it again. -/
def recovery : List Event :=
  [⟨0, .tryAcquire⟩, ⟨1, .recordFailure ⟨⟨0⟩, 0⟩⟩, ⟨5, .tryAcquire⟩, ⟨11, .tryAcquire⟩, ⟨12, .recordSuccess ⟨⟨1⟩, 1⟩⟩]

theorem recovery_protocol : (run (step ⟨1, 10, 30⟩) (.new 0) recovery).map (·.breaker.inner.state) = some .closed ∧
    Along (step ⟨1, 10, 30⟩) (Protocol ⟨1, 10, 30⟩) (.new 0) recovery :=
  ⟨by decide, (breaker_protocol ⟨1, 10, 30⟩ 0 recovery (by decide) (fresh_of_length (by decide))).1⟩

/-! ## Lost tokens -/

/-- The state after a number of probes: the last of them holds its token, and what was outstanding
before still is. -/
structure Probed (s t : Sys) (n : Nat) : Prop where
  state : t.breaker.inner.state = .halfOpen
  timer : t.breaker.inner.halfOpenedAt = some 0
  generation : t.breaker.inner.generation = (s.epoch + n) % 2 ^ 64
  epoch : t.epoch = s.epoch + n
  probe : ⟨⟨(s.epoch + n) % 2 ^ 64⟩, s.epoch + n⟩ ∈ t.held
  held : ∀ held ∈ s.held, held ∈ t.held

theorem step_probe {cfg : CircuitBreakerConfig} {s t : Sys} {n : Nat} (hgeneration : t.breaker.inner.generation = (s.epoch + n) % 2 ^ 64)
    (hepoch : t.epoch = s.epoch + n) (hheld : ∀ held ∈ s.held, held ∈ t.held)
    (hstate : (t.breaker.inner.state = .opened ∧ elapsedAtLeast t.breaker.inner.openedAt 0 cfg.recoveryWindow = true) ∨
      (t.breaker.inner.state = .halfOpen ∧ elapsedAtLeast t.breaker.inner.halfOpenedAt 0 cfg.halfOpenTimeout = true)) :
    ∃ u, step cfg t ⟨0, .tryAcquire⟩ = some u ∧ Probed s u (n + 1) := by
  have hgeneration' : (t.breaker.inner.generation + 1) % 2 ^ 64 = (s.epoch + (n + 1)) % 2 ^ 64 := by
    rw [hgeneration, mod_add_mod, add_assoc]
  rcases tryAcquire_cases t.breaker cfg 0 with ⟨hother, -⟩ | ⟨-, heq⟩ | ⟨hother, -⟩
  · rcases hstate with ⟨hstate, -⟩ | ⟨hstate, -⟩ <;> cases hstate.symm.trans hother
  · have hne : t.breaker.inner.state ≠ .closed := by
      rcases hstate with hstate | hstate <;> rw [hstate.1] <;> decide
    refine ⟨_, by rw [step]; simp only [heq, hne, if_false]; rfl, ?_⟩
    rw [hgeneration', hepoch]
    exact ⟨rfl, rfl, rfl, rfl, .head _, fun held h => .tail _ (hheld held h)⟩
  · rcases hstate with ⟨hstate, helapsed⟩ | ⟨hstate, helapsed⟩ <;> rcases hother with ⟨hother, hnot⟩ | ⟨hother, hnot⟩
    · cases helapsed.symm.trans hnot
    · cases hstate.symm.trans hother
    · cases hstate.symm.trans hother
    · cases helapsed.symm.trans hnot

theorem probes_run (cfg : CircuitBreakerConfig) (htimeout : cfg.halfOpenTimeout = 0) {s : Sys} : ∀ {t : Sys} {n : Nat} (more : Nat),
    Probed s t n → ∃ u, run (step cfg) t (replicate more ⟨0, .tryAcquire⟩) = some u ∧ Probed s u (n + more)
  | t, n, 0, h => ⟨t, rfl, h⟩
  | t, n, more + 1, h => by
    have helapsed : elapsedAtLeast t.breaker.inner.halfOpenedAt 0 cfg.halfOpenTimeout = true := by
      rw [h.timer, htimeout]
      rfl
    obtain ⟨u, hstep, hu⟩ := step_probe h.generation h.epoch h.held (.inr ⟨h.state, helapsed⟩)
    obtain ⟨v, hrun, hv⟩ := probes_run cfg htimeout more hu
    refine ⟨v, run_cons.2 ⟨u, hstep, hrun⟩, ?_⟩
    rwa [add_assoc, add_comm 1 more] at hv

/-- Two tokens are issued in the first generation; one fails and opens the breaker, the other stays. -/
def firstGeneration : List Event := [⟨0, .tryAcquire⟩, ⟨0, .tryAcquire⟩, ⟨0, .recordFailure ⟨⟨0⟩, 0⟩⟩]

def afterFirst : Sys :=
  { breaker := .store
      { consecutiveFailures := 1, halfOpenedAt := none, openedAt := some 0, lastActivity := 0, inFlight := 1, state := .opened
        generation := 0 }
    held := [⟨⟨0⟩, 0⟩]
    epoch := 0 }

theorem firstGeneration_probes (n : Nat) : ∃ t,
    run (step ⟨1, 0, 0⟩) (.new 0) (firstGeneration ++ replicate (n + 1) ⟨0, .tryAcquire⟩) = some t ∧
      Probed afterFirst t (1 + n) := by
  obtain ⟨u, hstep, hu⟩ : ∃ u, step ⟨1, 0, 0⟩ afterFirst ⟨0, .tryAcquire⟩ = some u ∧ Probed afterFirst u (0 + 1) :=
    step_probe rfl rfl (fun _ h => h) (.inl ⟨rfl, rfl⟩)
  obtain ⟨t, hrun, ht⟩ := probes_run ⟨1, 0, 0⟩ rfl n hu
  refine ⟨t, run_append.2 ⟨afterFirst, by decide, run_cons.2 ⟨u, hstep, hrun⟩⟩, ?_⟩
  rwa [zero_add] at ht

/-- After a whole round of the counter the old token is of the current generation again, and its
success closes the breaker. -/
theorem wrapped_generation : ∃ (cfg : CircuitBreakerConfig) (events : List Event) (s t : Sys) (old probe : Held),
    events.Pairwise (·.now ≤ ·.now) ∧ run (step cfg) (.new 0) events = some s ∧ s.breaker.inner.state = .halfOpen ∧
      old ∈ s.held ∧ probe ∈ s.held ∧ old.epoch < probe.epoch ∧ probe.epoch = s.epoch ∧
      old.token.generation = s.breaker.inner.generation ∧ probe.token.generation = s.breaker.inner.generation ∧
      step cfg s ⟨0, .recordSuccess old⟩ = some t ∧ t.breaker.inner.state = .closed := by
  obtain ⟨n, hn⟩ : ∃ n : Nat, 1 + n = 2 ^ 64 := ⟨2 ^ 64 - 1, by decide⟩
  obtain ⟨s, hrun, hs⟩ := firstGeneration_probes n
  rw [hn] at hs
  have hgeneration : s.breaker.inner.generation = 0 := hs.generation.trans (by decide)
  have hheld : ⟨⟨0⟩, 0⟩ ∈ s.held := hs.held _ (.head _)
  have hprobe : ⟨⟨0⟩, 2 ^ 64⟩ ∈ s.held := hs.probe
  have hclock : (firstGeneration ++ replicate (n + 1) (⟨0, .tryAcquire⟩ : Event)).Pairwise (·.now ≤ ·.now) := by
    rw [pairwise_append, pairwise_replicate]
    refine ⟨by decide, .inr le_rfl, ?_⟩
    intro e he e' he'
    rw [eq_of_mem_replicate he']
    revert e
    decide
  obtain ⟨t, hstep, hclosed⟩ : ∃ t, step ⟨1, 0, 0⟩ s ⟨0, .recordSuccess ⟨⟨0⟩, 0⟩⟩ = some t ∧ t.breaker.inner.state = .closed := by
    refine ⟨_, if_pos hheld, ?_⟩
    simp [recordSuccess, CircuitInner.releaseToken, hgeneration, hs.state, store]
  exact ⟨⟨1, 0, 0⟩, _, s, t, ⟨⟨0⟩, 0⟩, ⟨⟨0⟩, 2 ^ 64⟩, hclock, hrun, hs.state, hheld, hprobe, by decide,
    hs.epoch.symm, hgeneration.symm, hgeneration.symm, hstep, hclosed⟩

end Praxis.Circuit
