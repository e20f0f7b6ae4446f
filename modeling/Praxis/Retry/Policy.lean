/-
Whether a failed attempt is tried again: the classification of the outcome under the policy, and
the guards on the number of retries, the body to replay, the method, the deadline and the budget.
-/
import Praxis.Retry.Body
import Mathlib.Algebra.Ring.Nat

namespace Praxis.Retry

/-! ## Policies -/

inductive RetriableCondition where
  | connectFailure
  | reset
  | refusedStream
  | status5xx
deriving Repr, DecidableEq

structure BackoffConfig where
  baseIntervalMs : Nat
  maxIntervalMs : Nat
deriving Repr, DecidableEq

def BackoffConfig.default : BackoffConfig := { baseIntervalMs := 25, maxIntervalMs := 250 }

/-- `RetryBodyLimit`: a limit that a policy may carry. -/
def RetryBodyLimit := { n : Nat // n ≤ maxRetryBodyLimitBytes }
deriving Repr, DecidableEq

def RetryBodyLimit.defaultLimit : RetryBodyLimit := ⟨defaultRetryBodyLimitBytes, Nat.le_refl _⟩

/-- `RetryPolicy`, as far as the decision reads it. -/
structure RetryPolicy where
  maxRetries : Option Nat
  retriableStatusCodes : List Nat
  retriableConditions : List RetriableCondition
  requestTimeoutMs : Option Nat
  backoff : Option BackoffConfig
  configured : Bool
  retryBodyLimitBytes : Option RetryBodyLimit
  allowNonIdempotent : Option Bool
deriving Repr, DecidableEq

def defaultMaxRetries : Nat := 3

def maxEffectiveRetries : Nat := 15

namespace RetryPolicy

def legacyDefault : RetryPolicy where
  maxRetries := some defaultMaxRetries
  retriableStatusCodes := []
  retriableConditions := [.connectFailure]
  requestTimeoutMs := none
  backoff := none
  configured := false
  retryBodyLimitBytes := some RetryBodyLimit.defaultLimit
  allowNonIdempotent := none

def effectiveMaxRetries (policy : RetryPolicy) : Nat := min (policy.maxRetries.getD defaultMaxRetries) maxEffectiveRetries

def bodyLimitBytes (policy : RetryPolicy) : Nat := (policy.retryBodyLimitBytes.getD RetryBodyLimit.defaultLimit).1

theorem bodyLimitBytes_le (policy : RetryPolicy) : policy.bodyLimitBytes ≤ maxRetryBodyLimitBytes :=
  (policy.retryBodyLimitBytes.getD RetryBodyLimit.defaultLimit).2

end RetryPolicy

/-! ## The decision -/

inductive RetryOutcome where
  | connectFailure
  | reset
  | refusedStream
  | statusCode (code : Nat)
  | other
deriving Repr, DecidableEq

inductive RetryDecision where
  | retry (backoff : Nat)
  | doNotRetry
deriving Repr, DecidableEq

def isRetriable (policy : RetryPolicy) : RetryOutcome → Bool
  | .connectFailure => policy.retriableConditions.contains .connectFailure
  | .reset => policy.retriableConditions.contains .reset
  | .refusedStream => policy.retriableConditions.contains .refusedStream
  | .statusCode code =>
    policy.retriableStatusCodes.contains code ||
      (decide (500 ≤ code) && decide (code < 600) && policy.retriableConditions.contains .status5xx)
  | .other => false

/-- `compute_backoff`, in milliseconds; `jitter` is the random number drawn, any number at all. -/
def computeBackoff (attempt : Nat) (config : Option BackoffConfig) (jitter : Nat) : Nat :=
  let cfg := config.getD BackoffConfig.default
  if attempt = 0 then 0
  else
    let exp := min (attempt - 1) 63
    let scaled := min (cfg.baseIntervalMs * 2 ^ exp) (2 ^ 64 - 1)
    let capped := min scaled cfg.maxIntervalMs
    if capped = 0 then 0 else jitter % (capped + 1)

/-- What `should_retry` reads of the request. -/
structure RetryCtx where
  body : BodyCtx
  retries : Nat
  requestIsIdempotent : Bool
  /-- `request_start.elapsed()`, in milliseconds. -/
  elapsed : Nat
deriving Repr, DecidableEq

/-- `should_retry`. `budget` is the cluster's retry state, if there is one: whether it admits a retry. -/
def shouldRetry (ctx : RetryCtx) (policy : RetryPolicy) (out : RetryOutcome) (budget : Option Bool)
    (jitter : Nat) : RetryDecision :=
  if !isRetriable policy out then .doNotRetry
  else if policy.effectiveMaxRetries ≤ ctx.retries then .doNotRetry
  else if ctx.body.streamingWriterCannotReplay then .doNotRetry
  else if policy.bodyLimitBytes < ctx.body.replayBodySize then .doNotRetry
  else if !ctx.requestIsIdempotent && !policy.allowNonIdempotent.getD false then .doNotRetry
  else if policy.requestTimeoutMs.any (· ≤ ctx.elapsed) then .doNotRetry
  else if budget.any (!·) then .doNotRetry
  else .retry (computeBackoff (ctx.retries + 1) policy.backoff jitter)

/-- What an admitted retry passed. -/
structure Admitted (ctx : RetryCtx) (policy : RetryPolicy) (out : RetryOutcome) : Prop where
  retriable : isRetriable policy out = true
  left : ctx.retries < policy.effectiveMaxRetries
  replayable : ctx.body.streamingWriterCannotReplay = false
  size : ctx.body.replayBodySize ≤ policy.bodyLimitBytes

variable {ctx : RetryCtx} {policy : RetryPolicy} {out : RetryOutcome}

theorem shouldRetry_admits {budget : Option Bool} {jitter backoff : Nat}
    (h : shouldRetry ctx policy out budget jitter = .retry backoff) : Admitted ctx policy out := by
  unfold shouldRetry at h
  split at h; · cases h
  rename_i hretriable
  split at h; · cases h
  rename_i hleft
  split at h; · cases h
  rename_i hreplayable
  split at h; · cases h
  rename_i hsize
  exact ⟨by simpa using hretriable, Nat.lt_of_not_le hleft, by simpa using hreplayable, Nat.le_of_not_lt hsize⟩

/-- The body of an admitted retry, if a filter wrote it, was small enough for its copy to be kept. -/
theorem Admitted.stampedLength_le {len : Nat} (h : Admitted ctx policy out) (hlen : ctx.body.stampedLength = some len) :
    len ≤ maxRetryBodyLimitBytes :=
  calc len ≤ ctx.body.replayBodySize := BodyCtx.stampedLength_le_replayBodySize hlen
    _ ≤ policy.bodyLimitBytes := h.size
    _ ≤ maxRetryBodyLimitBytes := policy.bodyLimitBytes_le

end Praxis.Retry
