/-
Transitions of the iterative request router. A streamed step is asked twice: when its response head
is there, for the rules that look at nothing else, and at the end of its body, for all rules. With
the header rules first, the two together select what one evaluation of the list would select.
-/
import Praxis.Lib.Except
import Praxis.Pipeline.Action

namespace Praxis.Iterative

open List

open Praxis.Lib (bind_eq_ok)
open Praxis.Pipeline (FilterResults)

/-! ## Rules -/

inductive ResponseOrigin where
  | upstream
  /-- `Local`. -/
  | locally
  | transport
deriving Repr, DecidableEq

inductive TransportErrorKind where
  | admissionTimeout
  | circuitOpen
  | connect
  | io
  | deadlineExceeded
  | responseTooLarge
deriving Repr, DecidableEq

structure StepTransition where
  default : Bool
  filter : Option String
  key : Option String
  next : Option String
  origin : Option ResponseOrigin
  status : Option (List Nat)
  transportError : Option TransportErrorKind
  value : Option String
  done : Bool
deriving Repr, DecidableEq

/-- What the rules read of a step's outcome. -/
structure StepOutcome where
  status : Nat
  origin : ResponseOrigin
  transportError : Option TransportErrorKind
deriving Repr, DecidableEq

inductive TransitionResult where
  | done
  | next (step : String)
  | noMatch
deriving Repr, DecidableEq

def isHeaderSafeFailover (t : StepTransition) : Bool :=
  t.next.isSome && !t.default && t.filter.isNone && t.key.isNone && t.value.isNone

/-- The loop of `streaming_transition_order_is_valid`. -/
def orderIsValidFrom (completionSeen : Bool) : List StepTransition → Bool
  | [] => true
  | t :: rest =>
    if isHeaderSafeFailover t then !completionSeen && orderIsValidFrom completionSeen rest else orderIsValidFrom true rest

def streamingTransitionOrderIsValid : List StepTransition → Bool := orderIsValidFrom false

def matchesTransition (t : StepTransition) (out : StepOutcome) (results : FilterResults) : Bool :=
  let statusOk := t.status.all fun codes => codes.contains out.status
  let originOk := t.origin.all fun expected => expected == out.origin
  let transportOk := t.transportError.all fun expected => out.transportError == some expected
  let resultOk :=
    match t.filter, t.key, t.value with
    | some filterName, some key, some value => (results.get filterName).any fun set => set.get key == some value
    | none, none, none => true
    | _, _, _ => false
  statusOk && originOk && transportOk && resultOk

/-- What a rule that applies selects. -/
def StepTransition.result (t : StepTransition) : TransitionResult :=
  if t.done then .done
  else
    match t.next with
    | some next => .next next
    | none => .done

def evaluateTransitions (out : StepOutcome) (results : FilterResults) : List StepTransition → TransitionResult
  | [] => .noMatch
  | t :: rest =>
    if t.default || matchesTransition t out results then t.result else evaluateTransitions out results rest

/-- The loop of `evaluate_header_transitions`. -/
def evaluateHeaderRules (out : StepOutcome) : List StepTransition → TransitionResult
  | [] => .noMatch
  | t :: rest =>
    match t.next with
    | some next => if matchesTransition t out .empty then .next next else evaluateHeaderRules out rest
    | none => evaluateHeaderRules out rest

def evaluateHeaderTransitions (out : StepOutcome) (ts : List StepTransition) : TransitionResult :=
  evaluateHeaderRules out (ts.takeWhile isHeaderSafeFailover)

/-! ## Validation -/

/-- A check of `validate_transitions`. -/
def refuse (bad : Bool) (message : String) : Except String Unit := if bad then .error message else .ok ()

/-- The checks of one rule, the `i`th of its step. -/
def validateTransition (stepName : String) (stepNames : List String) (i : Nat) (hasDefault : Bool) (t : StepTransition) :
    Except String Unit := do
  let fields := [t.filter, t.key, t.value]
  let outside := (t.status.getD []).find? fun status => !(100 ≤ status && status ≤ 599)
  let step := s!"iterative_request_router: step '{stepName}' "
  let rule := step ++ s!"transition {i}: "
  refuse (t.default && hasDefault) (step ++ "has multiple default transitions")
  refuse (t.done && t.next.isSome) (rule ++ "'done' and 'next' are mutually exclusive")
  refuse (!t.done && t.next.isNone && !t.default) (rule ++ "must specify 'next' or 'done'")
  refuse (t.next.any fun next => !stepNames.contains next) (step ++ s!"transition references unknown step '{t.next.getD stepName}'")
  refuse (!t.default && t.filter.isNone && t.status.isNone && t.origin.isNone)
    (rule ++ "non-default transition must specify 'filter', 'status', or 'origin'")
  refuse (t.transportError.isSome && t.origin != some .transport) (rule ++ "'transport_error' requires 'origin: transport'")
  refuse (fields.any Option.isSome && !fields.all Option.isSome) (rule ++ "'filter', 'key', and 'value' must be specified together")
  refuse (fields.any fun field => field.any String.isEmpty) (rule ++ "filter predicate fields must not be empty")
  refuse (t.status == some []) (rule ++ "status predicate must not be empty")
  refuse outside.isSome (rule ++ s!"status must be 100..=599, got {outside.getD 0}")

/-- The loop of `validate_transitions`. -/
def validateTransitionsFrom (stepName : String) (stepNames : List String) (i : Nat) (hasDefault : Bool) :
    List StepTransition → Except String Unit
  | [] => .ok ()
  | t :: rest => do
    validateTransition stepName stepNames i hasDefault t
    validateTransitionsFrom stepName stepNames (i + 1) (hasDefault || t.default) rest

def validateTransitions (stepName : String) (ts : List StepTransition) (stepNames : List String) : Except String Unit :=
  validateTransitionsFrom stepName stepNames 0 false ts

/-! ## Two evaluations -/

/-- The transition of a streamed step: at header time, or else at completion. -/
def streamedTransition (out : StepOutcome) (results : FilterResults) (ts : List StepTransition) : TransitionResult :=
  match evaluateHeaderTransitions out ts with
  | .next step => .next step
  | .done => evaluateTransitions out results ts
  | .noMatch => evaluateTransitions out results ts

/-- The rule that one evaluation in order comes to. -/
def selectedRule (out : StepOutcome) (results : FilterResults) (ts : List StepTransition) : Option StepTransition :=
  ts.find? fun t => t.default || matchesTransition t out results

variable {stepName : String} {stepNames : List String} {ts : List StepTransition} {out : StepOutcome}
  {results : FilterResults} {t : StepTransition}

variable {i : Nat} {hasDefault : Bool}

theorem validateTransition_exclusive (h : validateTransition stepName stepNames i hasDefault t = .ok ())
    (hdone : t.done = true) : t.next = none := by
  obtain ⟨_, -, h⟩ := bind_eq_ok h
  obtain ⟨_, hexclusive, -⟩ := bind_eq_ok h
  cases hnext : t.next with
  | none => rfl
  | some next =>
    rw [refuse, hdone, hnext] at hexclusive
    cases hexclusive

theorem next_eq_none_of_valid (h : validateTransitionsFrom stepName stepNames i hasDefault ts = .ok ()) :
    ∀ t ∈ ts, t.done = true → t.next = none := by
  induction ts generalizing i hasDefault with
  | nil => simp
  | cons t rest ih =>
    obtain ⟨_, ht, hrest⟩ := bind_eq_ok h
    exact forall_mem_cons.2 ⟨validateTransition_exclusive ht, ih hrest⟩

theorem not_headerSafe_of_order (h : orderIsValidFrom true ts = true) :
    ∀ t ∈ ts, isHeaderSafeFailover t = false := by
  induction ts with
  | nil => simp
  | cons t rest ih =>
    rw [orderIsValidFrom] at h
    cases hsafe : isHeaderSafeFailover t with
    | true => simp [hsafe] at h
    | false => exact forall_mem_cons.2 ⟨hsafe, ih (by simpa [hsafe] using h)⟩

/-- At header time the first rule decides if it is header-safe. -/
theorem evaluateHeader_cons (out : StepOutcome) (results : FilterResults) (rest : List StepTransition)
    (hsafe : isHeaderSafeFailover t = true) :
    t.default = false ∧ ∃ step, t.next = some step ∧ evaluateHeaderTransitions out (t :: rest) =
      if matchesTransition t out results then .next step else evaluateHeaderTransitions out rest := by
  obtain ⟨⟨⟨⟨hnext, hdefault⟩, hfilter⟩, hkey⟩, hvalue⟩ : (((t.next.isSome ∧ t.default = false) ∧ t.filter = none) ∧
      t.key = none) ∧ t.value = none := by simpa [isHeaderSafeFailover] using hsafe
  obtain ⟨step, hnext⟩ := Option.isSome_iff_exists.1 hnext
  -- the filter results are not looked at
  have hmatch : matchesTransition t out .empty = matchesTransition t out results := by
    simp only [matchesTransition, hfilter, hkey, hvalue]
  refine ⟨hdefault, step, hnext, ?_⟩
  rw [evaluateHeaderTransitions, takeWhile_cons, hsafe, if_pos rfl, evaluateHeaderRules, hnext, hmatch]
  rfl

theorem streamed_of_order (out : StepOutcome) (results : FilterResults)
    (hexclusive : ∀ t ∈ ts, t.done = true → t.next = none) (horder : orderIsValidFrom false ts = true) :
    streamedTransition out results ts = evaluateTransitions out results ts ∧
    (evaluateHeaderTransitions out ts = .noMatch →
      ∀ t, selectedRule out results ts = some t → isHeaderSafeFailover t = false) := by
  induction ts with
  | nil => exact ⟨rfl, by simp [selectedRule]⟩
  | cons t rest ih =>
    obtain ⟨ht, hrest⟩ := forall_mem_cons.1 hexclusive
    rw [orderIsValidFrom] at horder
    cases hsafe : isHeaderSafeFailover t with
    | true =>
      obtain ⟨hdefault, step, hnext, hheader⟩ := evaluateHeader_cons out results rest hsafe
      have ih := ih hrest (by simpa [hsafe] using horder)
      rw [streamedTransition, evaluateTransitions, selectedRule, find?_cons, hheader, hdefault]
      cases hmatch : matchesTransition t out results with
      | true =>
        have hdone : t.done = false := by
          by_contra hdone
          rw [ht (by simpa using hdone)] at hnext
          cases hnext
        refine ⟨?_, by simp⟩
        simp [StepTransition.result, hdone, hnext]
      | false => exact ih
    | false =>
      have hheader : evaluateHeaderTransitions out (t :: rest) = .noMatch := by
        rw [evaluateHeaderTransitions, takeWhile_cons, hsafe]
        rfl
      refine ⟨by rw [streamedTransition, hheader], fun _ found hfound => ?_⟩
      rcases mem_cons.1 (mem_of_find?_eq_some hfound) with rfl | hmem
      · exact hsafe
      · exact not_headerSafe_of_order (by simpa [hsafe] using horder) found hmem

/-- Streaming a step does not change its transition. What is found at header time is what one evaluation comes to; what
is left for the end of the body is no header-safe failover. -/
theorem streamed_transition_same (hvalid : validateTransitions stepName ts stepNames = .ok ())
    (horder : streamingTransitionOrderIsValid ts = true) (out : StepOutcome) (results : FilterResults) :
    streamedTransition out results ts = evaluateTransitions out results ts ∧
    (evaluateHeaderTransitions out ts = .noMatch →
      ∀ t, selectedRule out results ts = some t → isHeaderSafeFailover t = false) :=
  streamed_of_order out results (next_eq_none_of_valid hvalid) horder

private def failover (status : Nat) : StepTransition := ⟨false, none, none, some "backup", none, some [status], none, none, false⟩

private def otherwise : StepTransition := ⟨true, none, none, none, none, none, none, none, true⟩

/-- A 503 fails over at header time. -/
theorem streamed_failover : validateTransitions "main" [failover 503, otherwise] ["main", "backup"] = .ok () ∧
    streamedTransition ⟨503, .upstream, none⟩ .empty [failover 503, otherwise] =
      evaluateTransitions ⟨503, .upstream, none⟩ .empty [failover 503, otherwise] := by
  have hvalid : validateTransitions "main" [failover 503, otherwise] ["main", "backup"] = .ok () := by decide
  exact ⟨hvalid, (streamed_transition_same hvalid (by decide) ⟨503, .upstream, none⟩ .empty).1⟩

end Praxis.Iterative
