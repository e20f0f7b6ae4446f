/-
The static reading of request conditions for one bound cluster. What the metadata of the cluster
decides is decided for every request that is bound to it; the rest is left open.
-/
import Praxis.Pipeline.Condition

namespace Praxis.Pipeline

inductive BindingConditionState where
  | always
  | never
  | maybe
deriving DecidableEq

structure ClusterApplicationMetadata where
  protocol : Option String
  provider : Option String

/-- The part of the condition that the metadata decides. -/
def boundMatches (bound : ApplicationMatch) (metadata : Option ClusterApplicationMetadata) : Bool :=
  bound.applicationProtocol.all (fun expected => metadata.bind (·.protocol) == some expected) &&
    bound.applicationProvider.all (fun expected => metadata.bind (·.provider) == some expected)

/-- The condition asks for something that the metadata does not tell. -/
def ConditionMatch.hasUnknown (m : ConditionMatch) : Bool :=
  m.grpc.isSome || m.path.isSome || m.pathPrefix.isSome || m.methods.isSome || m.headers.isSome ||
    m.headersPresent.isSome || m.selectedUpstream.isSome

def singleBindingConditionState (condition : Condition) (metadata : Option ClusterApplicationMetadata) :
    BindingConditionState :=
  let kindWhen := match condition with
    | .when _ => true
    | .unless _ => false
  match condition.matcher.boundUpstream with
  | none => .maybe
  | some bound =>
    match kindWhen, boundMatches bound metadata, condition.matcher.hasUnknown with
    | true, false, _ => .never
    | false, true, false => .never
    | _, true, true => .maybe
    | true, true, false => .always
    | false, false, _ => .always

/-- The loop over the conditions, with the state so far. -/
def bindingConditionLoop (metadata : Option ClusterApplicationMetadata) :
    BindingConditionState → List Condition → BindingConditionState
  | state, [] => state
  | state, condition :: rest =>
    match singleBindingConditionState condition metadata with
    | .never => .never
    | .maybe => bindingConditionLoop metadata .maybe rest
    | .always => bindingConditionLoop metadata state rest

def bindingConditionState (conditions : List Condition) (metadata : Option ClusterApplicationMetadata) :
    BindingConditionState :=
  bindingConditionLoop metadata .always conditions

/-! ## Soundness -/

/-- The metadata as conditions see it on a request that is bound to the cluster. -/
def boundView (metadata : Option ClusterApplicationMetadata) : BoundUpstreamView where
  protocol := metadata.bind (·.protocol)
  provider := metadata.bind (·.provider)

/-- The verdict is right about a filter that runs or does not run. -/
def BindingConditionState.Sound : BindingConditionState → Bool → Prop
  | .always, runs => runs = true
  | .never, runs => runs = false
  | .maybe, _ => True

section

variable (req : Request) (selected : SelectedUpstream) (metadata : Option ClusterApplicationMetadata)

/-- A match is what the bound upstream decides and a part that holds if nothing else is asked for. -/
theorem matches_bound (m : ConditionMatch) (bound : BoundUpstreamView) : ∃ others, (m.hasUnknown = false → others = true) ∧
    matchesRequestFrom m req bound selected = (others && m.boundUpstream.all bound.matches) := by
  refine ⟨_, fun hknown => ?_, Bool.and_right_comm ..⟩
  simp only [ConditionMatch.hasUnknown, Bool.or_eq_false_iff, Option.isSome_eq_false_iff, Option.isNone_iff_eq_none] at hknown
  obtain ⟨⟨⟨⟨⟨⟨hgrpc, hpath⟩, hprefix⟩, hmethods⟩, hheaders⟩, hpresent⟩, hselected⟩ := hknown
  simp [matchesRequestIntrinsics, hgrpc, hpath, hprefix, hmethods, hheaders, hpresent, hselected]

theorem single_sound (condition : Condition) : (singleBindingConditionState condition metadata).Sound
    (shouldExecuteBoundSelected [condition] req (boundView metadata) selected) := by
  obtain ⟨others, hothers, hmatches⟩ := matches_bound req selected condition.matcher (boundView metadata)
  unfold singleBindingConditionState
  rcases hbound : condition.matcher.boundUpstream with _ | want
  · trivial
  · have hdecided : boundMatches want metadata = (boundView metadata).matches want := rfl
    rw [hbound, Option.all_some] at hmatches
    dsimp only
    rw [hdecided]
    generalize (boundView metadata).matches want = view at hmatches ⊢
    -- the kind of condition, whether the view matches, and whether something else is asked for
    cases condition <;> cases view <;> cases hunknown : ConditionMatch.hasUnknown _ <;>
      simp_all [shouldExecuteBoundSelected, Condition.matcher, BindingConditionState.Sound]

theorem loop_sound (conditions : List Condition) {state : BindingConditionState} {before : Bool} (hstate : state.Sound before) :
    (bindingConditionLoop metadata state conditions).Sound
      (before && shouldExecuteBoundSelected conditions req (boundView metadata) selected) := by
  induction conditions generalizing state before with
  | nil => rwa [shouldExecuteBoundSelected, List.all_nil, Bool.and_true]
  | cons condition rest ih =>
    have hsound := single_sound req selected metadata condition
    have hcons : shouldExecuteBoundSelected (condition :: rest) req (boundView metadata) selected =
        (shouldExecuteBoundSelected [condition] req (boundView metadata) selected &&
          shouldExecuteBoundSelected rest req (boundView metadata) selected) := by
      simp [shouldExecuteBoundSelected]
    rw [hcons, bindingConditionLoop, ← Bool.and_assoc]
    cases hsingle : singleBindingConditionState condition metadata <;> rw [hsingle] at hsound
    case always =>
      unfold BindingConditionState.Sound at hsound
      rw [hsound, Bool.and_true]
      exact ih hstate
    case never =>
      unfold BindingConditionState.Sound at hsound
      rw [hsound, Bool.and_false]
      exact Bool.false_and _
    case maybe => exact ih trivial

end

/-- A static verdict holds for every request that is bound to a cluster with the metadata, whatever else it has and
whatever is selected for it. -/
theorem bindingConditionState_sound (conditions : List Condition) (metadata : Option ClusterApplicationMetadata)
    (req : Request) (selected : SelectedUpstream) :
    let runs := shouldExecuteBoundSelected conditions req (boundView metadata) selected
    (bindingConditionState conditions metadata = .never → runs = false) ∧
    (bindingConditionState conditions metadata = .always → runs = true) := by
  have hsound := loop_sound req selected metadata conditions (show BindingConditionState.always.Sound true from rfl)
  rw [Bool.true_and] at hsound
  unfold bindingConditionState
  constructor <;> intro h <;> rwa [h] at hsound

end Praxis.Pipeline
