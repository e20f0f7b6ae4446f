/-
The token bucket of the rate limiter, with exact arithmetic. Callers bring their own timestamps,
which need not be in order; only an admission moves the refill time. Between any two points of a
sequence of calls the bucket admits at most its burst and what the rate adds while the largest
timestamp advances.
-/
import Praxis.Lib.Machine
import Mathlib.Tactic.FieldSimp
import Mathlib.Tactic.Linarith
import Mathlib.Tactic.Ring

namespace Praxis.RateLimit

open Nat Praxis.Lib

/-! ## The bucket -/

def nanosToSecs (nanos : Nat) : ℚ :=
  let wholeSecs := nanos / 1000000000
  let remainder := nanos % 1000000000
  wholeSecs + remainder / 1000000000

structure TokenBucket where
  lastRefill : Nat
  tokens : ℚ
deriving DecidableEq

namespace TokenBucket

def new (burst : ℚ) : TokenBucket := ⟨0, burst⟩

/-- `try_acquire`: what remains, if a token could be taken. -/
def tryAcquire (rate burst : ℚ) (bucket : TokenBucket) (nowNanos : Nat) : Option ℚ × TokenBucket :=
  let elapsedNanos := nowNanos - bucket.lastRefill
  let tokens :=
    if 0 < elapsedNanos then min (bucket.tokens + nanosToSecs elapsedNanos * rate) burst else bucket.tokens
  if tokens < 1 then (none, bucket) else (some (tokens - 1), ⟨max bucket.lastRefill nowNanos, tokens - 1⟩)

def currentTokens (rate burst : ℚ) (bucket : TokenBucket) (nowNanos : Nat) : ℚ :=
  min (bucket.tokens + nanosToSecs (nowNanos - bucket.lastRefill) * rate) burst

end TokenBucket

theorem nanosToSecs_eq (nanos : Nat) : nanosToSecs nanos = nanos / 1000000000 := by
  have hsplit : (nanos : ℚ) = (1000000000 * (nanos / 1000000000) + nanos % 1000000000 : Nat) := by rw [div_add_mod]
  rw [nanosToSecs, hsplit]
  push_cast
  ring

@[simp] theorem nanosToSecs_zero : nanosToSecs 0 = 0 := by
  rw [nanosToSecs_eq, cast_zero, zero_div]

theorem nanosToSecs_nonneg (nanos : Nat) : 0 ≤ nanosToSecs nanos := by
  rw [nanosToSecs_eq]
  exact div_nonneg (cast_nonneg nanos) (by norm_num)

theorem nanosToSecs_sub {a b : Nat} (h : a ≤ b) : nanosToSecs (b - a) = nanosToSecs b - nanosToSecs a := by
  rw [nanosToSecs_eq, nanosToSecs_eq, nanosToSecs_eq, cast_sub h]
  ring

/-! ## One call -/

section

variable {rate burst : ℚ} {bucket : TokenBucket}

/-- `try_acquire` takes a token from what `current_tokens` shows, or leaves the bucket. -/
theorem tryAcquire_cases (rate : ℚ) (hle : bucket.tokens ≤ burst) (now : Nat) :
    (bucket.currentTokens rate burst now < 1 ∧ bucket.tryAcquire rate burst now = (none, bucket)) ∨
    (1 ≤ bucket.currentTokens rate burst now ∧ bucket.tryAcquire rate burst now =
      (some (bucket.currentTokens rate burst now - 1),
        ⟨max bucket.lastRefill now, bucket.currentTokens rate burst now - 1⟩)) := by
  have hcurrent : (if 0 < now - bucket.lastRefill then
      min (bucket.tokens + nanosToSecs (now - bucket.lastRefill) * rate) burst else bucket.tokens) =
      bucket.currentTokens rate burst now := by
    rw [TokenBucket.currentTokens]
    split
    case isTrue => rfl
    case isFalse hnone =>
      have hzero : now - bucket.lastRefill = 0 := by omega
      rw [hzero, nanosToSecs_zero, zero_mul, add_zero, min_eq_left hle]
  rw [TokenBucket.tryAcquire]
  simp only [hcurrent]
  by_cases hfew : bucket.currentTokens rate burst now < 1
  · exact .inl ⟨hfew, if_pos hfew⟩
  · exact .inr ⟨not_lt.1 hfew, if_neg hfew⟩

/-- No more flows in than the rate gives. -/
theorem currentTokens_le (burst : ℚ) (hrate : 0 ≤ rate) {seen now : Nat} (hseen : bucket.lastRefill ≤ seen) (hnow : seen ≤ now) :
    bucket.currentTokens rate burst now ≤
      bucket.currentTokens rate burst seen + (nanosToSecs now - nanosToSecs seen) * rate := by
  have hgain : 0 ≤ (nanosToSecs now - nanosToSecs seen) * rate := by
    rw [← nanosToSecs_sub hnow]
    exact mul_nonneg (nanosToSecs_nonneg _) hrate
  rw [TokenBucket.currentTokens, TokenBucket.currentTokens, nanosToSecs_sub hseen, nanosToSecs_sub (le_trans hseen hnow),
    min_add]
  refine le_min ?_ ?_
  · refine (min_le_left _ _).trans_eq ?_
    ring
  · exact (min_le_right _ _).trans (by linarith)

theorem currentTokens_mono (bucket : TokenBucket) (burst : ℚ) (hrate : 0 ≤ rate) {now seen : Nat} (hle : now ≤ seen) :
    bucket.currentTokens rate burst now ≤ bucket.currentTokens rate burst seen := by
  rw [TokenBucket.currentTokens, TokenBucket.currentTokens]
  have hsecs : nanosToSecs (now - bucket.lastRefill) ≤ nanosToSecs (seen - bucket.lastRefill) := by
    rw [nanosToSecs_eq, nanosToSecs_eq]
    gcongr
  gcongr

theorem currentTokens_nonneg (hrate : 0 ≤ rate) (hburst : 1 ≤ burst) (hnonneg : 0 ≤ bucket.tokens) (now : Nat) :
    0 ≤ bucket.currentTokens rate burst now := by
  rw [TokenBucket.currentTokens]
  have hgain := mul_nonneg (nanosToSecs_nonneg (now - bucket.lastRefill)) hrate
  exact le_min (by linarith) (by linarith)

end

/-! ## Sequences of calls -/

/-- A bucket and the largest timestamp that it has been called with. -/
structure Called where
  bucket : TokenBucket
  seen : Nat

/-- A call with a timestamp. -/
def callStep (rate burst : ℚ) (s : Called) (now : Nat) : Option Called :=
  some ⟨(s.bucket.tryAcquire rate burst now).2, max s.seen now⟩

/-- Whether the call is admitted, as a number. -/
def admits (rate burst : ℚ) (s : Called) (now : Nat) : ℚ := if (s.bucket.tryAcquire rate burst now).1.isSome then 1 else 0

/-- The stored tokens are in their bounds; and the bucket was refilled at the largest timestamp, or
does not have a whole token even then. -/
structure CalledOk (rate burst : ℚ) (s : Called) : Prop where
  refill : s.bucket.lastRefill ≤ s.seen
  nonneg : 0 ≤ s.bucket.tokens
  le_burst : s.bucket.tokens ≤ burst
  settled : s.bucket.lastRefill = s.seen ∨ s.bucket.tokens + nanosToSecs (s.seen - s.bucket.lastRefill) * rate < 1

/-- What the bucket shows at the largest timestamp, less what the rate has given by then. -/
def potential (rate burst : ℚ) (s : Called) : ℚ := s.bucket.currentTokens rate burst s.seen - nanosToSecs s.seen * rate

section

variable {rate burst : ℚ} {s t : Called} {now : Nat}

theorem potential_of_refilled {bucket : TokenBucket} (hle : bucket.tokens ≤ burst) :
    potential rate burst ⟨bucket, bucket.lastRefill⟩ = bucket.tokens - nanosToSecs bucket.lastRefill * rate := by
  rw [potential, TokenBucket.currentTokens, Nat.sub_self, nanosToSecs_zero, zero_mul, add_zero, min_eq_left hle]

/-- A call pays for its admission from the potential. -/
theorem callStep_ok (hrate : 0 ≤ rate) (hburst : 1 ≤ burst) (h : CalledOk rate burst s)
    (hstep : callStep rate burst s now = some t) :
    CalledOk rate burst t ∧ admits rate burst s now + potential rate burst t ≤ potential rate burst s := by
  cases hstep
  have hadvance : s.seen ≤ now → s.bucket.currentTokens rate burst now - nanosToSecs now * rate ≤ potential rate burst s := by
    intro hlate
    have hflow := currentTokens_le burst hrate h.refill hlate
    rw [potential]
    linarith
  rcases tryAcquire_cases rate h.le_burst now with ⟨hfew, heq⟩ | ⟨henough, heq⟩
  · -- refused: the bucket stays as it is
    rw [admits, heq]
    rcases le_total now s.seen with hearly | hlate
    · rw [max_eq_left hearly]
      exact ⟨h, by simp⟩
    · rw [max_eq_right hlate]
      refine ⟨⟨le_trans h.refill hlate, h.nonneg, h.le_burst, .inr ?_⟩, by simpa [potential] using hadvance hlate⟩
      rw [TokenBucket.currentTokens] at hfew
      exact (min_lt_iff.1 hfew).resolve_right (not_lt.2 hburst)
  · rw [admits, heq]
    have hbounds : 0 ≤ s.bucket.currentTokens rate burst now - 1 ∧ s.bucket.currentTokens rate burst now - 1 ≤ burst := by
      have hle : s.bucket.currentTokens rate burst now ≤ burst := min_le_right _ _
      constructor <;> linarith
    -- an admission cannot be older than the largest timestamp, unless the bucket was refilled there
    have hrefill : max s.bucket.lastRefill now = max s.seen now := by
      rcases h.settled with heq | hempty
      · rw [heq]
      · rcases le_total now s.seen with hearly | hlate
        · have hmono := currentTokens_mono s.bucket burst hrate hearly
          have hshown : s.bucket.currentTokens rate burst s.seen < 1 := (min_le_left _ _).trans_lt hempty
          linarith
        · rw [max_eq_right hlate, max_eq_right (le_trans h.refill hlate)]
    refine ⟨⟨hrefill.le, hbounds.1, hbounds.2, .inl hrefill⟩, ?_⟩
    have hpaid : potential rate burst ⟨⟨max s.bucket.lastRefill now, s.bucket.currentTokens rate burst now - 1⟩, max s.seen now⟩ =
        s.bucket.currentTokens rate burst now - 1 - nanosToSecs (max s.seen now) * rate := by
      rw [← hrefill]
      exact potential_of_refilled hbounds.2
    rw [hpaid]
    simp only [Option.isSome_some, if_true]
    rcases le_total now s.seen with hearly | hlate
    · have hmono := currentTokens_mono s.bucket burst hrate hearly
      rw [max_eq_left hearly, potential]
      linarith
    · have hflow := hadvance hlate
      rw [max_eq_right hlate]
      linarith

end

/-- The bucket after a sequence of calls. -/
def afterCalls (rate burst : ℚ) (bucket : TokenBucket) (calls : List Nat) : TokenBucket :=
  calls.foldl (fun bucket now => (bucket.tryAcquire rate burst now).2) bucket

/-- How many of the calls are admitted. -/
def admitted (rate burst : ℚ) : TokenBucket → List Nat → Nat
  | _, [] => 0
  | bucket, now :: rest =>
    let (remaining, bucket) := bucket.tryAcquire rate burst now
    (if remaining.isSome then 1 else 0) + admitted rate burst bucket rest

/-- The largest of the timestamps; the filter's epoch is 0. -/
def largest (calls : List Nat) : Nat := calls.foldl max 0

theorem le_foldl_max (calls : List Nat) (seen : Nat) : seen ≤ calls.foldl max seen := by
  induction calls generalizing seen with
  | nil => exact le_refl seen
  | cons now rest ih => exact le_trans (le_max_left seen now) (ih _)

section

variable (rate burst : ℚ)

theorem run_callStep (calls : List Nat) (s : Called) :
    run (callStep rate burst) s calls = some ⟨afterCalls rate burst s.bucket calls, calls.foldl max s.seen⟩ := by
  induction calls generalizing s with
  | nil => rfl
  | cons now rest ih => exact run_cons.2 ⟨_, rfl, ih _⟩

theorem total_admits {calls : List Nat} {s : Called} :
    total (callStep rate burst) (admits rate burst) s calls = admitted rate burst s.bucket calls := by
  induction calls generalizing s with
  | nil => exact cast_zero.symm
  | cons now rest ih =>
    rw [total, admitted, callStep, Option.elim_some, ih, admits]
    push_cast
    rfl

end

section

variable {rate burst : ℚ} (hrate : 0 ≤ rate) (hburst : 1 ≤ burst)

include hrate hburst

theorem calledOk_afterCalls {s : Called} (h : CalledOk rate burst s) (calls : List Nat) :
    CalledOk rate burst ⟨afterCalls rate burst s.bucket calls, calls.foldl max s.seen⟩ :=
  run_invariant (G := fun _ _ => True) (fun _ _ _ h _ hcall => (callStep_ok hrate hburst h hcall).1) h
    (Along.of_forall fun _ _ _ => trivial) (run_callStep rate burst calls s)

theorem admitted_le_potential {s : Called} (h : CalledOk rate burst s) (calls : List Nat) :
    (admitted rate burst s.bucket calls : ℚ) ≤
      burst + (nanosToSecs (calls.foldl max s.seen) - nanosToSecs s.seen) * rate := by
  have hpaid := total_le (potential rate burst) (fun _ _ _ h hcall => callStep_ok hrate hburst h hcall) h
    (run_callStep rate burst calls s)
  rw [total_admits, potential, potential] at hpaid
  have hleft := currentTokens_nonneg hrate hburst (calledOk_afterCalls hrate hburst h calls).nonneg (calls.foldl max s.seen)
  have hshown : s.bucket.currentTokens rate burst s.seen ≤ burst := min_le_right _ _
  linarith

end

/-- The stored tokens stay between 0 and the burst, and any calls in a row are admitted at most the
burst and what the rate gives while the largest timestamp advances. -/
theorem admitted_le (rate burst : ℚ) (hrate : 0 ≤ rate) (hburst : 1 ≤ burst) (before calls : List Nat) :
    0 ≤ (afterCalls rate burst (.new burst) before).tokens ∧ (afterCalls rate burst (.new burst) before).tokens ≤ burst ∧
      (admitted rate burst (afterCalls rate burst (.new burst) before) calls : ℚ) ≤
        burst + rate * nanosToSecs (largest (before ++ calls) - largest before) := by
  have hnew : CalledOk rate burst ⟨.new burst, 0⟩ :=
    ⟨le_refl 0, le_trans zero_le_one hburst, le_refl burst, .inl rfl⟩
  have hok := calledOk_afterCalls hrate hburst hnew before
  refine ⟨hok.nonneg, hok.le_burst, ?_⟩
  have hlargest : largest (before ++ calls) = calls.foldl max (largest before) := by
    rw [largest, largest, List.foldl_append]
  rw [hlargest, nanosToSecs_sub (le_foldl_max calls (largest before)), mul_comm]
  exact admitted_le_potential hrate hburst hok calls

/-- A burst of 2 at one token a second, with a clock that goes back. -/
theorem admitted_le_backwards : admitted 1 2 (.new 2) [0, 3000000000, 1000000000, 3000000000, 4000000000] = 4 ∧
    (admitted 1 2 (.new 2) [0, 3000000000, 1000000000, 3000000000, 4000000000] : ℚ) ≤ 2 + 1 * nanosToSecs 4000000000 :=
  ⟨by decide +kernel, (admitted_le 1 2 (by decide) (by decide) [] _).2.2⟩

theorem admitted_spaced {rate burst : ℚ} (hrate : 0 ≤ rate) (hburst : 1 ≤ burst) {calls : List Nat} {s : Called}
    (h : CalledOk rate burst s) (hspaced : (s.seen :: calls).IsChain fun t t' => 1 ≤ nanosToSecs (t' - t) * rate) :
    admitted rate burst s.bucket calls = calls.length := by
  induction calls generalizing s with
  | nil => rfl
  | cons now rest ih =>
    obtain ⟨hgap, hrest⟩ := List.isChain_cons_cons.1 hspaced
    have hlater : s.seen ≤ now := by
      by_contra hearly
      rw [Nat.sub_eq_zero_of_le (le_of_not_ge hearly), nanosToSecs_zero] at hgap
      linarith
    have hok := calledOk_afterCalls hrate hburst h [now]
    rw [List.foldl_cons, List.foldl_nil, max_eq_right hlater] at hok
    rcases tryAcquire_cases rate h.le_burst now with ⟨hfew, -⟩ | ⟨-, heq⟩
    · -- since the refill at least as much time has gone by as since the last call
      have hsecs : nanosToSecs (now - s.seen) ≤ nanosToSecs (now - s.bucket.lastRefill) := by
        rw [nanosToSecs_eq, nanosToSecs_eq]
        gcongr
        exact h.refill
      have hgain := mul_le_mul_of_nonneg_right hsecs hrate
      have hnonneg := h.nonneg
      rw [TokenBucket.currentTokens] at hfew
      rcases min_lt_iff.1 hfew with hfew | hfew <;> linarith
    · have hrest := ih hok hrest
      simp only [afterCalls, List.foldl_cons, List.foldl_nil, heq] at hrest
      simp [admitted, heq, hrest, Nat.add_comm]

/-- Whatever came before, of calls that come a token's time apart only the first can be refused. -/
theorem spaced_calls_admitted (rate burst : ℚ) (hrate : 0 ≤ rate) (hburst : 1 ≤ burst) (before : List Nat) {first : Nat}
    (hfirst : largest before ≤ first) {calls : List Nat}
    (hspaced : (first :: calls).IsChain fun t t' => 1 ≤ nanosToSecs (t' - t) * rate) :
    admitted rate burst (afterCalls rate burst (.new burst) (before ++ [first])) calls = calls.length := by
  have hnew : CalledOk rate burst ⟨.new burst, 0⟩ := ⟨le_refl 0, le_trans zero_le_one hburst, le_refl burst, .inl rfl⟩
  have hok := calledOk_afterCalls hrate hburst hnew (before ++ [first])
  rw [List.foldl_concat, show max (before.foldl max 0) first = first from max_eq_right hfirst] at hok
  exact admitted_spaced hrate hburst hok hspaced

/-- One call a second at one token a second, after the burst has been used up. -/
theorem spaced_after_burst : admitted 1 1 (afterCalls 1 1 (.new 1) ([0, 0] ++ [5])) [1000000005, 2000000005] = 2 :=
  spaced_calls_admitted 1 1 (by decide) (by decide) [0, 0] (by decide) (by decide +kernel)

end Praxis.RateLimit
