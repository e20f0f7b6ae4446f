/-
The retry budget of a cluster: tokens that accrue at a rate per second, in whole tokens. What a
refill adds is rounded down and the time it uses up is rounded up, so that the remainder carried
in `last_refill_ms` never counts twice. The bound on admitted retries is a potential argument:
`1000 · tokens - rate · last_refill_ms` never grows, and an admission lowers it by 1000.
-/
import Praxis.Lib.Machine
import Mathlib.Algebra.Ring.Nat

namespace Praxis.Retry

open List Nat Praxis.Lib

/-! ## The budget -/

/-- `RetryBudget`, without its rate and its percentage. -/
structure RetryBudget where
  tokens : Nat
  lastRefillMs : Nat
deriving Repr, DecidableEq

/-- `u64::MAX`, where the code's additions and multiplications saturate. -/
def u64Max : Nat := 2 ^ 64 - 1

namespace RetryBudget

section

-- `min_retries_per_second`, and `max_tokens` for a number of active requests
variable (rate : Nat) (maxTokens : Nat → Nat) (budget : RetryBudget)

def addTokens (tokensToAdd activeRequests : Nat) : RetryBudget :=
  { budget with tokens := min (min (budget.tokens + tokensToAdd) u64Max) (maxTokens activeRequests) }

def refillAt (now : UInt64) (activeRequests : Nat) : RetryBudget :=
  let last := budget.lastRefillMs
  let elapsedMs := now.toNat - last
  let accrued := min (rate * elapsedMs) u64Max / 1000
  let consumedMs :=
    min (if rate = 0 then elapsedMs else (min (accrued * 1000) u64Max + rate - 1) / rate) elapsedMs
  if 0 < accrued then
    { budget with lastRefillMs := min (last + consumedMs) u64Max }.addTokens maxTokens accrued activeRequests
  else budget.addTokens maxTokens 0 activeRequests

def tryAcquire : Bool × RetryBudget :=
  if budget.tokens = 0 then (false, budget) else (true, { budget with tokens := budget.tokens - 1 })

/-- The calls that change a budget. -/
inductive Call where
  | refillAt (now : UInt64) (activeRequests : Nat)
  | tryAcquire
deriving Repr, DecidableEq

/-- A call, and whether it admitted a retry. -/
def call : Call → Bool × RetryBudget
  | .refillAt now activeRequests => (false, budget.refillAt rate maxTokens now activeRequests)
  | .tryAcquire => budget.tryAcquire

/-- The number of retries that the calls admit. -/
def admitted (calls : List Call) : Nat := (answers (call rate maxTokens) budget calls).count true

/-- The times of the refills. -/
def times (calls : List Call) : List Nat := calls.filterMap fun
  | .refillAt now _ => some now.toNat
  | .tryAcquire => none

/-- The last time in the calls; without a refill, no time passes for the budget. -/
def lastTime (calls : List Call) : Nat := (times calls).getLast?.getD budget.lastRefillMs

end

/-! ## One refill -/

/-- What accrues is paid for by the time that is used up. -/
theorem accrued_le_consumed {rate elapsedMs accrued : Nat} (haccrued : accrued = min (rate * elapsedMs) u64Max / 1000) :
    1000 * accrued ≤
      rate * min (if rate = 0 then elapsedMs else (min (accrued * 1000) u64Max + rate - 1) / rate) elapsedMs := by
  have hpaid : 1000 * accrued ≤ rate * elapsedMs := by omega
  rw [← Nat.mul_min_mul_left]
  refine Nat.le_min.2 ⟨?_, hpaid⟩
  split
  · exact hpaid
  · next hrate =>
    have hfits : min (accrued * 1000) u64Max = 1000 * accrued := by omega
    have hceil := Nat.div_add_mod (1000 * accrued + rate - 1) rate
    have hmod := Nat.mod_lt (1000 * accrued + rate - 1) (Nat.pos_of_ne_zero hrate)
    rw [hfits]
    omega

section

variable (rate : Nat) (maxTokens : Nat → Nat)

/-- What a refill does: it respects the cap, does not raise the potential, and moves the refill time
forward, to the present at most. -/
theorem refillAt_spec (budget : RetryBudget) (now : UInt64) (activeRequests : Nat) :
    let after := budget.refillAt rate maxTokens now activeRequests
    after.tokens ≤ maxTokens activeRequests ∧
      1000 * after.tokens + rate * budget.lastRefillMs ≤ 1000 * budget.tokens + rate * after.lastRefillMs ∧
      budget.lastRefillMs ≤ after.lastRefillMs ∧ after.lastRefillMs ≤ max budget.lastRefillMs now.toNat := by
  unfold refillAt addTokens
  simp only
  generalize helapsed : now.toNat - budget.lastRefillMs = elapsedMs
  generalize haccrued : min (rate * elapsedMs) u64Max / 1000 = accrued
  have hpaid := accrued_le_consumed haccrued.symm
  generalize hconsumed : min (if rate = 0 then elapsedMs else (min (accrued * 1000) u64Max + rate - 1) / rate) elapsedMs =
    consumedMs at hpaid ⊢
  have hconsumed_le : consumedMs ≤ elapsedMs := by omega
  split
  · next hpos =>
    -- something accrued, so time has passed since the last refill and the new time fits
    have hpassed : 0 < elapsedMs := by
      rcases Nat.eq_zero_or_pos elapsedMs with rfl | hpassed
      · simp at haccrued
        omega
      · exact hpassed
    have hnow : now.toNat ≤ u64Max := le_sub_one_of_lt now.toNat_lt
    have hlast : min (budget.lastRefillMs + consumedMs) u64Max = budget.lastRefillMs + consumedMs := by omega
    simp only [hlast, mul_add]
    omega
  · simp only
    omega

/-! ## Sequences of calls -/

/-- The potential pays for the admissions, and the refill time moves forward, to the latest time at most. -/
theorem admitted_spec {latest : Nat} : ∀ (calls : List Call) (budget : RetryBudget), (∀ time ∈ times calls, time ≤ latest) →
    let after := stateAfter (call rate maxTokens) budget calls
    1000 * admitted rate maxTokens budget calls + 1000 * after.tokens + rate * budget.lastRefillMs ≤
        1000 * budget.tokens + rate * after.lastRefillMs ∧
      budget.lastRefillMs ≤ after.lastRefillMs ∧ after.lastRefillMs ≤ max budget.lastRefillMs latest
  | [], budget, _ => by simp [admitted, answers, stateAfter]
  | .refillAt now activeRequests :: calls, budget, htimes => by
    obtain ⟨-, hpaid, hforward, hnow⟩ := refillAt_spec rate maxTokens budget now activeRequests
    obtain ⟨hrest, hforward', hlatest⟩ := admitted_spec calls (budget.refillAt rate maxTokens now activeRequests)
      fun time htime => htimes time (by simp_all [times])
    have hle := htimes now.toNat (by simp [times])
    simp only [admitted, answers, stateAfter, call] at hrest hforward' hlatest ⊢
    simp only [count_cons_of_ne Bool.false_ne_true]
    omega
  | .tryAcquire :: calls, budget, htimes => by
    obtain ⟨hrest, hforward', hlatest⟩ := admitted_spec calls budget.tryAcquire.2 htimes
    simp only [admitted, answers, stateAfter, call] at hrest hforward' hlatest ⊢
    by_cases hempty : budget.tokens = 0
    · simp only [tryAcquire, if_pos hempty, count_cons_of_ne Bool.false_ne_true] at hrest hforward' hlatest ⊢
      omega
    · simp only [tryAcquire, if_neg hempty, count_cons_self] at hrest hforward' hlatest ⊢
      omega

theorem le_getLast {times : List Nat} {last : Nat} (hsorted : times.Pairwise (· ≤ ·)) (hlast : times.getLast? = some last) :
    ∀ time ∈ times, time ≤ last := by
  obtain ⟨init, rfl⟩ := getLast?_eq_some_iff.1 hlast
  intro time htime
  rcases mem_append.1 htime with hinit | htime
  · exact (pairwise_append.1 hsorted).2.2 time hinit last (mem_singleton_self last)
  · exact (mem_singleton.1 htime).le

/-- In any run of calls, from whatever point of a sequence of calls to a budget, the retries admitted are
at most the tokens held and what the rate gives from the refill time to the last time in the run; and
a refill respects its cap at every point. -/
theorem retries_admitted_le (tokens created : Nat) (before calls : List Call)
    (hsorted : (created :: times (before ++ calls)).Pairwise (· ≤ ·)) :
    let start := stateAfter (call rate maxTokens) ⟨tokens, created⟩ before
    start.lastRefillMs ≤ start.lastTime calls ∧
      admitted rate maxTokens start calls ≤
        start.tokens + rate * (start.lastTime calls - start.lastRefillMs) / 1000 ∧
      ∀ now activeRequests, (start.refillAt rate maxTokens now activeRequests).tokens ≤ maxTokens activeRequests := by
  intro start
  rw [times, List.filterMap_append] at hsorted
  have hlatest : ∀ time ∈ times calls, time ≤ start.lastTime calls := by
    intro time htime
    obtain ⟨last, hlast⟩ := Option.isSome_iff_exists.1 (List.getLast?_isSome.2 (List.ne_nil_of_mem htime))
    rw [lastTime, hlast]
    exact le_getLast (List.pairwise_append.1 (List.pairwise_cons.1 hsorted).2).2.1 hlast time htime
  have hstart : start.lastRefillMs ≤ start.lastTime calls := by
    cases hlast : (times calls).getLast? with
    | none => simp [lastTime, hlast]
    | some last =>
      have hwhole : (created :: (times before ++ times calls)).getLast? = some last := by
        rw [← List.cons_append, List.getLast?_append, hlast, Option.some_or]
      have hle := le_getLast hsorted hwhole
      have hbefore := (admitted_spec rate maxTokens before ⟨tokens, created⟩
        fun time htime => hle time (.tail _ (List.mem_append_left _ htime))).2.2
      have hcreated := hle created (.head _)
      rw [lastTime, hlast, Option.getD_some]
      exact le_trans hbefore (max_le hcreated (le_refl last))
  obtain ⟨hpaid, hforward, hafter⟩ := admitted_spec rate maxTokens calls start hlatest
  refine ⟨hstart, ?_, fun now activeRequests => (refillAt_spec rate maxTokens start now activeRequests).1⟩
  have hgain : rate * (stateAfter (call rate maxTokens) start calls).lastRefillMs ≤ rate * start.lastTime calls :=
    Nat.mul_le_mul_left rate (by omega)
  rw [Nat.mul_sub]
  omega

end

/-- Three tokens a second: of five calls in the run, two refills, the second after half a second, pay for two admissions. -/
theorem retries_admitted_half_second : let start := stateAfter (call 3 fun _ => 10) ⟨1, 0⟩ [.refillAt 100 0]
    admitted 3 (fun _ => 10) start [.refillAt 200 4, .tryAcquire, .tryAcquire, .refillAt 600 4, .tryAcquire] ≤
      start.tokens + 3 * (start.lastTime [.refillAt 200 4, .tryAcquire, .tryAcquire, .refillAt 600 4, .tryAcquire] -
        start.lastRefillMs) / 1000 :=
  (retries_admitted_le 3 (fun _ => 10) 1 0 [.refillAt 100 0]
    [.refillAt 200 4, .tryAcquire, .tryAcquire, .refillAt 600 4, .tryAcquire] (by decide)).2.1

end RetryBudget

end Praxis.Retry
