/-
Exact delivery. Over all calls of a body phase with filters that only read, the bytes handed onward are
the bytes that came in, and a call is refused for its size and for nothing else.
-/
import Praxis.Body.Phase
import Praxis.Lib.Machine

namespace Praxis.Body

open List Option Nat

open Praxis.Pipeline (BodyMode FilterAction FilterError FailureMode)
open Praxis.Lib (run run_cons run_append run_invariant Along)

/-! ## Filters that only read -/

/-- A hook that leaves the chunk as it is and returns `Continue`, `Release` or `BodyDone`. -/
structure BodyHook.ReadOnly (hook : BodyHook) : Prop where
  runs : ∃ b, hook.runs = .ok b
  body : ∀ body, (hook.run body).1 = body
  action : ∀ body, (hook.run body).2 = .ok .proceed ∨ (hook.run body).2 = .ok .release ∨ (hook.run body).2 = .ok .bodyDone

theorem runBodyFilters_readOnly (failureMode : Nat → FailureMode) {hooks : Nat → BodyHook}
    (h : ∀ i, (hooks i).ReadOnly) (body : Option Bytes) : ∀ (indices : List Nat) (done : List Bool) (released : Bool),
    ∃ (releases : Bool) (done' : List Bool), runBodyFilters failureMode hooks indices done released body =
      (.ok (if releases then .release else .proceed), done', body)
  | [], done, released => ⟨released, done, rfl⟩
  | i :: rest, done, released => by
    have ih := runBodyFilters_readOnly failureMode h body rest
    unfold runBodyFilters
    split
    · exact ih done released
    · obtain ⟨b, hruns⟩ := (h i).runs
      rw [hruns]
      cases b with
      | false => exact ih done released
      | true =>
        have hbody := (h i).body body
        have haction := (h i).action body
        cases hrun : (hooks i).run body with
        | mk body' result =>
          rw [hrun] at hbody haction
          simp only at hbody haction
          subst hbody
          rcases haction with rfl | rfl | rfl
          · exact ih done released
          · exact ih done true
          · exact ih (done.set i true) released

/-! ## One call -/

/-- What a call does to the body of its direction when the filters only read; none when it is refused. -/
def Delivery.accept (ceiling : Option Nat) (d : Delivery) (body : Option Bytes) (eos releases : Bool) :
    Option (Option Bytes × Delivery) :=
  if !isSizeLimit d.mode && exceedsBodyCeiling ceiling d.bytes body then none
  else
    match d.mode with
    | .sizeLimit maxBytes =>
      match checkBodySizeLimit body d.bytes maxBytes with
      | (true, _) => none
      | (false, total) => some (body, { d with bytes := total })
    | _ =>
      match beforeFilters d d.bytes body eos with
      | .error _ => none
      | .ok (body, buffer, counted) =>
        some (afterFilters { d with buffer, bytes := accumulateBodyBytes counted body } (isStreamBuffer d.mode)
          (if releases then .release else .proceed) body eos)

inductive Direction where
  | request
  | response
deriving Repr, DecidableEq

namespace Direction

def delivery : Direction → PhaseCtx → Delivery
  | .request, ctx => ctx.request
  | .response, ctx => ctx.response

def ceiling : Direction → BodyPipeline → Option Nat
  | .request, pipeline => pipeline.requestBodyCeiling
  | .response, pipeline => pipeline.responseBodyCeiling

def needsBody : Direction → BodyPipeline → Bool
  | .request, pipeline => pipeline.needsRequestBody
  | .response, pipeline => pipeline.needsResponseBody

/-- What is handed onward by a call of the phase; none when the call is refused. -/
def call (dir : Direction) (pipeline : BodyPipeline) (ctx : PhaseCtx) (c : BodyCall) : Option (Option Bytes × PhaseCtx) :=
  match dir with
  | .request =>
    match runRequestBody pipeline ctx c with
    | (.ok _, onward) => some onward
    | (.error _, _) => none
  | .response =>
    match runResponseBody pipeline ctx c with
    | (.ok _, onward) => some onward
    | (.error _, _) => none

theorem ceilingFits (dir : Direction) (pipeline : BodyPipeline) : ∀ limit ∈ dir.ceiling pipeline, limit ≤ u64Max := by
  cases dir with
  | request => exact pipeline.requestCeilingFits
  | response => exact pipeline.responseCeilingFits

end Direction

/-- A request without a pre-read body, a retry or an upgrade. -/
structure PhaseCtx.Plain (ctx : PhaseCtx) : Prop where
  notUpgraded : ctx.connectionUpgraded = false
  noReplay : ctx.requestReplayPrefixPending = false
  notAdapted : ctx.adaptationRan = false
  noPreRead : ctx.preReadBody = none
  snapshot : ctx.requestSnapshot = true

variable {c : BodyCall} {maxBytes : Nat} {d : Delivery} {recv : Bytes}

theorem runBody_readOnly (hhooks : ∀ i, (c.hooks i).ReadOnly) (failureMode : Nat → FailureMode) (ceiling : Option Nat)
    (indices : List Nat) (d : Delivery) (done : List Bool) :
    ∃ releases : Bool,
      match d.accept ceiling c.body c.endOfStream releases with
      | none => ∃ fault rest, runBody failureMode ceiling indices true d.bytes d done c = (.error fault, rest)
      | some (onward, d') => ∃ done', runBody failureMode ceiling indices true d.bytes d done c = (.ok (), onward, d', done') := by
  by_cases hceiling : (!isSizeLimit d.mode && exceedsBodyCeiling ceiling d.bytes c.body) = true
  · refine ⟨false, ?_⟩
    rw [Delivery.accept, if_pos hceiling]
    exact ⟨_, _, by rw [runBody, if_pos hceiling]⟩
  · cases hmode : d.mode with
    | sizeLimit maxBytes =>
      refine ⟨false, ?_⟩
      simp only [Delivery.accept, runBody, if_neg hceiling]
      simp only [hmode]
      rcases hcheck : checkBodySizeLimit c.body d.bytes maxBytes with ⟨_ | _, total⟩
      · exact ⟨_, rfl⟩
      · exact ⟨_, _, rfl⟩
    | _ =>
      cases hbefore : beforeFilters d d.bytes c.body c.endOfStream with
      | error buffer =>
        refine ⟨false, ?_⟩
        simp only [Delivery.accept, runBody, if_neg hceiling]
        simp only [hmode, hbefore]
        exact ⟨_, _, rfl⟩
      | ok seen =>
        obtain ⟨body, buffer, count⟩ := seen
        obtain ⟨releases, done', hfilters⟩ := runBodyFilters_readOnly failureMode hhooks body indices done false
        refine ⟨releases, ?_⟩
        simp only [Delivery.accept, runBody, if_neg hceiling]
        simp only [hmode, hbefore, hfilters]
        refine ⟨done', ?_⟩
        cases releases <;> rfl

theorem call_plain {dir : Direction} {pipeline : BodyPipeline} (hneeds : dir.needsBody pipeline = true) {ctx : PhaseCtx}
    (hplain : ctx.Plain) (hhooks : ∀ i, (c.hooks i).ReadOnly) :
    ∃ releases : Bool,
      match (dir.delivery ctx).accept (dir.ceiling pipeline) c.body c.endOfStream releases with
      | none => dir.call pipeline ctx c = none
      | some (onward, d) => ∃ ctx', dir.call pipeline ctx c = some (onward, ctx') ∧ ctx'.Plain ∧ dir.delivery ctx' = d := by
  obtain ⟨hupgraded, hreplay, hadapted, hpreRead, hsnapshot⟩ := hplain
  cases dir with
  | request =>
    have hneeds : pipeline.needsRequestBody = true := hneeds
    obtain ⟨releases, hrun⟩ := runBody_readOnly hhooks pipeline.failureMode pipeline.requestBodyCeiling
      pipeline.requestBodyFilterIndices ctx.request (ensureBodyDoneIndices ctx.bodyDoneIndices pipeline.filterCount)
    refine ⟨releases, ?_⟩
    simp only [Direction.call, runRequestBody, hupgraded, hreplay, drainPreReadBody, hadapted, hpreRead, hneeds, hsnapshot,
      Bool.false_eq_true, if_false, Option.isSome_none, Bool.not_true, Direction.delivery, Direction.ceiling]
    split at hrun
    · obtain ⟨fault, rest, hrun⟩ := hrun
      rw [hrun]
    · obtain ⟨done', hrun⟩ := hrun
      rw [hrun]
      exact ⟨_, rfl, ⟨rfl, rfl, rfl, rfl, rfl⟩, rfl⟩
  | response =>
    have hneeds : pipeline.needsResponseBody = true := hneeds
    obtain ⟨releases, hrun⟩ := runBody_readOnly hhooks pipeline.failureMode pipeline.responseBodyCeiling
      pipeline.responseBodyFilterIndices.reverse ctx.response
      (ensureBodyDoneIndices ctx.bodyDoneIndices pipeline.filterCount)
    refine ⟨releases, ?_⟩
    simp only [Direction.call, runResponseBody, hupgraded, hneeds, hsnapshot, Bool.false_eq_true, if_false, Bool.not_true,
      Direction.delivery, Direction.ceiling]
    split at hrun
    · obtain ⟨fault, rest, hrun⟩ := hrun
      rw [hrun]
    · obtain ⟨done', hrun⟩ := hrun
      rw [hrun]
      exact ⟨_, rfl, ⟨rfl, hreplay, hadapted, hpreRead, rfl⟩, rfl⟩

/-! ## Limits -/

/-- The limit a buffer is made with. -/
def effectiveLimit (maxBytes : Option Nat) : Nat := min (maxBytes.getD defaultMaxBufferBytes) maxBufferBytes

def OverCeiling (ceiling : Option Nat) (total : Nat) : Prop := ∃ limit ∈ ceiling, limit < total

/-- The total is over the limit of the mode the body started in. -/
def OverLimit (ceiling : Option Nat) (mode : BodyMode) (released : Bool) (total : Nat) : Prop :=
  match mode with
  | .sizeLimit maxBytes => maxBytes < total
  | .stream => OverCeiling ceiling total
  | .streamBuffer maxBytes => OverCeiling ceiling total ∨ released = false ∧ effectiveLimit maxBytes < total

/-- Limits are machine words. -/
def ModeFits : BodyMode → Prop
  | .sizeLimit maxBytes => maxBytes ≤ u64Max
  | .streamBuffer maxBytes => ∀ limit ∈ maxBytes, limit ≤ u64Max
  | .stream => True

variable {body : Option Bytes}

theorem chunkLen_eq : chunkLen body = (body.getD []).length := by
  cases body <;> rfl

theorem accumulate_eq {counter total : Nat} (h : counter = min total u64Max) (body : Option Bytes) :
    accumulateBodyBytes counter body = min (total + chunkLen body) u64Max := by
  subst h
  cases body with
  | none => rfl
  | some chunk =>
    simp only [accumulateBodyBytes, elim_some, saturatingAdd, chunkLen]
    omega

/-- The ceiling check compares the total, as long as the bytes before were within the ceiling. -/
theorem exceeds_iff {ceiling : Option Nat} (hfits : ∀ limit ∈ ceiling, limit ≤ u64Max) {counted total : Nat}
    (hcounted : counted = min total u64Max) (hwithin : ∀ limit ∈ ceiling, total ≤ limit) (body : Option Bytes) :
    exceedsBodyCeiling ceiling counted body = true ↔ OverCeiling ceiling (total + chunkLen body) := by
  cases ceiling with
  | none => simp [exceedsBodyCeiling, OverCeiling]
  | some limit =>
    have hlimit := hfits limit rfl
    have htotal := hwithin limit rfl
    have hexact : counted = total := by omega
    simp only [exceedsBodyCeiling, OverCeiling, any_some, checkedAdd, hexact, mem_def, some.injEq,
      exists_eq_left']
    split
    · simp
    · simp only [all_none, true_iff]
      omega

/-! ## What each mode does -/

theorem checkBodySizeLimit_eq {accumulated : Nat} (hfits : maxBytes ≤ u64Max) (hwithin : accumulated ≤ maxBytes) :
    checkBodySizeLimit body accumulated maxBytes =
      if maxBytes < accumulated + chunkLen body then (true, min (accumulated + chunkLen body) u64Max)
      else (false, accumulated + chunkLen body) := by
  cases body with
  | none => exact (if_neg (show ¬ maxBytes < accumulated by omega)).symm
  | some chunk =>
    have hlen : chunkLen (some chunk) = chunk.length := rfl
    simp only [checkBodySizeLimit, checkedAdd, hlen]
    by_cases hover : maxBytes < accumulated + chunk.length
    · rw [if_pos hover]
      by_cases hsum : accumulated + chunk.length ≤ u64Max
      · simp only [if_pos hsum, decide_eq_true hover, Nat.min_eq_left hsum]
      · simp only [if_neg hsum, Nat.min_eq_right (Nat.le_of_not_le hsum)]
    · simp only [if_neg hover, if_pos (Nat.le_trans (Nat.le_of_not_lt hover) hfits), decide_eq_false hover]

theorem accept_sizeLimit (hmode : d.mode = .sizeLimit maxBytes) (hfits : maxBytes ≤ u64Max) (hwithin : d.bytes ≤ maxBytes)
    {ceiling : Option Nat} (eos releases : Bool) :
    d.accept ceiling body eos releases =
      if maxBytes < d.bytes + chunkLen body then none else some (body, { d with bytes := d.bytes + chunkLen body }) := by
  have hceiling : ¬ (!isSizeLimit d.mode && exceedsBodyCeiling ceiling d.bytes body) = true := by simp [hmode, isSizeLimit]
  simp only [Delivery.accept, if_neg hceiling]
  simp only [hmode, checkBodySizeLimit_eq hfits hwithin]
  by_cases hover : maxBytes < d.bytes + chunkLen body
  · rw [if_pos hover, if_pos hover]
  · rw [if_neg hover, if_neg hover]

theorem accept_stream (hmode : d.mode = .stream) {ceiling : Option Nat} (eos releases : Bool) :
    d.accept ceiling body eos releases =
      if exceedsBodyCeiling ceiling d.bytes body then none
      else some (body, { d with bytes := accumulateBodyBytes d.bytes body }) := by
  simp only [Delivery.accept, hmode, isSizeLimit, Bool.not_false, Bool.true_and, beforeFilters, isStreamBuffer]
  cases releases with
  | false => simp [afterFilters, suppressStreamBufferChunk]
  | true => simp [afterFilters, releaseStreamBuffer, isStreamBuffer]

/-- The buffer has the bytes received, under the limit of its mode. -/
def Holds (maxBytes : Option Nat) (recv : Bytes) (buffer : Option BodyBuffer) : Prop :=
  buffer = none ∧ recv = [] ∨ buffer = some { bytes := recv, maxBytes := effectiveLimit maxBytes }

theorem Holds.bytes {maxBytes : Option Nat} {recv : Bytes} {buffer : Option BodyBuffer}
    (h : Holds maxBytes recv buffer) : (buffer.map BodyBuffer.bytes).getD [] = recv := by
  rcases h with ⟨rfl, rfl⟩ | rfl <;> rfl

/-- A chunk goes into the buffer unless it takes it over its limit. -/
theorem accumulate_spec {maxBytes : Option Nat} {buffer : Option BodyBuffer} (h : Holds maxBytes recv buffer)
    (hlen : recv.length ≤ effectiveLimit maxBytes) (body : Option Bytes) (eos : Bool) :
    (effectiveLimit maxBytes < recv.length + chunkLen body ∧
      ∃ rest, accumulateStreamBuffer body buffer eos maxBytes = (true, rest)) ∨
    (recv.length + chunkLen body ≤ effectiveLimit maxBytes ∧
      ∃ buffer', Holds maxBytes (recv ++ body.getD []) buffer' ∧
        accumulateStreamBuffer body buffer eos maxBytes =
          if eos then (false, buffer'.map BodyBuffer.bytes, none) else (false, body, buffer')) := by
  cases body with
  | none => exact .inr ⟨hlen, buffer, by rw [getD_none, append_nil]; exact h, rfl⟩
  | some chunk =>
    have hcurrent : buffer.getD (.new (maxBytes.getD defaultMaxBufferBytes)) =
        { bytes := recv, maxBytes := effectiveLimit maxBytes } := by
      rcases h with ⟨rfl, rfl⟩ | rfl <;> rfl
    by_cases hover : effectiveLimit maxBytes < recv.length + chunk.length
    · have hpush : BodyBuffer.push { bytes := recv, maxBytes := effectiveLimit maxBytes } chunk = none :=
        if_pos (show effectiveLimit maxBytes - recv.length < chunk.length by omega)
      refine .inl ⟨hover, (some chunk, some { bytes := recv, maxBytes := effectiveLimit maxBytes }), ?_⟩
      simp only [accumulateStreamBuffer, hcurrent, hpush]
    · have hpush : BodyBuffer.push { bytes := recv, maxBytes := effectiveLimit maxBytes } chunk =
          some { bytes := recv ++ chunk, maxBytes := effectiveLimit maxBytes } :=
        if_neg (show ¬ effectiveLimit maxBytes - recv.length < chunk.length by omega)
      refine .inr ⟨not_lt.1 hover, _, .inr rfl, ?_⟩
      simp only [accumulateStreamBuffer, hcurrent, hpush]
      rfl

/-! ## What the state says about the bytes so far -/

/-- The body state after some bytes came in and some were handed onward, in a phase that started in a
mode. -/
inductive Tracks (ceiling : Option Nat) : BodyMode → Delivery → Bytes → Bytes → Prop where
  | sizeLimit {maxBytes : Nat} {d : Delivery} {recv : Bytes} (mode : d.mode = .sizeLimit maxBytes)
      (bytes : d.bytes = recv.length) (within : recv.length ≤ maxBytes) :
      Tracks ceiling (.sizeLimit maxBytes) d recv recv
  | stream {m : BodyMode} {d : Delivery} {recv : Bytes} (start : isSizeLimit m = false) (mode : d.mode = .stream)
      (released : d.released = isStreamBuffer m) (bytes : d.bytes = min recv.length u64Max)
      (within : ∀ limit ∈ ceiling, recv.length ≤ limit) : Tracks ceiling m d recv recv
  | buffering {maxBytes : Option Nat} {d : Delivery} {recv : Bytes} (mode : d.mode = .streamBuffer maxBytes)
      (released : d.released = false) (bytes : d.bytes = min recv.length u64Max)
      (within : ∀ limit ∈ ceiling, recv.length ≤ limit) (buffer : Holds maxBytes recv d.buffer)
      (room : recv.length ≤ effectiveLimit maxBytes) : Tracks ceiling (.streamBuffer maxBytes) d recv []

/-- Bytes within the ceiling stay so unless the next chunk is refused. -/
theorem within_of_not_over {ceiling : Option Nat} {total : Nat} (h : ¬ OverCeiling ceiling total) :
    ∀ limit ∈ ceiling, total ≤ limit :=
  fun limit hlimit => not_lt.1 fun hlt => h ⟨limit, hlimit, hlt⟩

/-- What is left of a call that is not refused: at the end of the stream everything has been handed
onward, and before it the state has the new bytes. -/
def Continues (ceiling : Option Nat) (m : BodyMode) (recv onward : Bytes) (body : Option Bytes) (eos : Bool)
    (result : Option Bytes × Delivery) : Prop :=
  (eos = true → onward ++ result.1.getD [] = recv ++ body.getD []) ∧
  (eos = false → Tracks ceiling m result.2 (recv ++ body.getD []) (onward ++ result.1.getD []))

theorem accept_buffering {ceiling : Option Nat} {maxBytes : Option Nat} (hmode : d.mode = .streamBuffer maxBytes)
    (hreleased : d.released = false) (hbytes : d.bytes = min recv.length u64Max)
    (hbuffer : Holds maxBytes recv d.buffer) (hroom : recv.length ≤ effectiveLimit maxBytes) (body : Option Bytes)
    (eos releases : Bool) :
    (exceedsBodyCeiling ceiling d.bytes body = true ∨ effectiveLimit maxBytes < recv.length + chunkLen body) ∧
      d.accept ceiling body eos releases = none ∨
    exceedsBodyCeiling ceiling d.bytes body = false ∧ recv.length + chunkLen body ≤ effectiveLimit maxBytes ∧
      ((∀ limit ∈ ceiling, recv.length + chunkLen body ≤ limit) → ∃ result,
        d.accept ceiling body eos releases = some result ∧
          Continues ceiling (.streamBuffer maxBytes) recv [] body eos result) := by
  obtain ⟨mode, released, before, counted⟩ := d
  simp only at hmode hreleased hbytes hbuffer
  subst hmode hreleased
  cases hceiling : exceedsBodyCeiling ceiling counted body with
  | true =>
    refine .inl ⟨.inl rfl, ?_⟩
    simp [Delivery.accept, hceiling, isSizeLimit]
  | false =>
    have haccept : Delivery.accept ceiling ⟨.streamBuffer maxBytes, false, before, counted⟩ body eos releases =
        match accumulateStreamBuffer body before eos maxBytes with
        | (true, _) => none
        | (false, body, buffer) =>
          some (afterFilters ⟨.streamBuffer maxBytes, false, buffer,
            accumulateBodyBytes (if eos then 0 else counted) body⟩ true
            (if releases then .release else .proceed) body eos) := by
      simp only [Delivery.accept, hceiling, isSizeLimit, Bool.and_false, Bool.false_eq_true, if_false, beforeFilters,
        isStreamBuffer]
      cases accumulateStreamBuffer body before eos maxBytes with
      | mk overflow rest => cases overflow <;> rfl
    rw [haccept]
    rcases accumulate_spec hbuffer hroom body eos with ⟨hover, rest, hrun⟩ | ⟨hfits, buffer, hholds, hrun⟩
    · exact .inl ⟨.inr hover, by rw [hrun]⟩
    · refine .inr ⟨rfl, hfits, fun hwithin => ?_⟩
      rw [hrun]
      have hlen : (recv ++ body.getD []).length = recv.length + chunkLen body := by
        rw [List.length_append, chunkLen_eq]
      have hcount := accumulate_eq hbytes body
      cases eos with
      | true =>
        refine ⟨_, rfl, fun _ => ?_, by rintro ⟨⟩⟩
        cases releases <;> exact hholds.bytes
      | false =>
        refine ⟨_, rfl, by rintro ⟨⟩, fun _ => ?_⟩
        cases releases with
        | false =>
          exact .buffering rfl rfl (by rw [hlen]; exact hcount) (by rw [hlen]; exact hwithin) hholds (by rw [hlen]; exact hfits)
        | true =>
          show Tracks ceiling _ _ _ ([] ++ (buffer.map BodyBuffer.bytes).getD [])
          rw [hholds.bytes, List.nil_append]
          exact .stream rfl rfl rfl (by rw [hlen]; exact hcount) (by rw [hlen]; exact hwithin)

/-- A call is refused for its size and for nothing else, and what it lets pass is accounted for. -/
theorem accept_spec {ceiling : Option Nat} {m : BodyMode} {onward : Bytes} (htracks : Tracks ceiling m d recv onward)
    (hceiling : ∀ limit ∈ ceiling, limit ≤ u64Max) (hmode : ModeFits m) (body : Option Bytes) (eos releases : Bool) :
    OverLimit ceiling m d.released (recv.length + chunkLen body) ∧
      d.accept ceiling body eos releases = none ∨
    ¬ OverLimit ceiling m d.released (recv.length + chunkLen body) ∧
      ∃ result, d.accept ceiling body eos releases = some result ∧
        Continues ceiling m recv onward body eos result := by
  have hlen : (recv ++ body.getD []).length = recv.length + chunkLen body := by
    rw [length_append, chunkLen_eq]
  cases htracks with
  | @sizeLimit maxBytes _ _ hd hbytes hwithin =>
    rw [accept_sizeLimit hd hmode (hbytes ▸ hwithin), hbytes]
    by_cases hover : maxBytes < recv.length + chunkLen body
    · exact .inl ⟨hover, if_pos hover⟩
    · refine .inr ⟨hover, _, if_neg hover, fun _ => rfl, fun _ => ?_⟩
      exact .sizeLimit hd hlen.symm (by omega)
  | stream hstart hd hreleased hbytes hwithin =>
    have hover : OverLimit ceiling m d.released (recv.length + chunkLen body) ↔
        exceedsBodyCeiling ceiling d.bytes body = true := by
      rw [exceeds_iff hceiling hbytes hwithin]
      cases m with
      | sizeLimit maxBytes => cases hstart
      | stream => rfl
      | streamBuffer maxBytes => simp [OverLimit, hreleased, isStreamBuffer]
    rw [accept_stream hd, hover]
    by_cases hexceeds : exceedsBodyCeiling ceiling d.bytes body = true
    · exact .inl ⟨hexceeds, if_pos hexceeds⟩
    · refine .inr ⟨hexceeds, _, if_neg hexceeds, fun _ => rfl, fun _ => ?_⟩
      have hwithin' := within_of_not_over (mt (exceeds_iff hceiling hbytes hwithin body).2 hexceeds)
      exact .stream hstart hd hreleased (by rw [hlen]; exact accumulate_eq hbytes body) (by rw [hlen]; exact hwithin')
  | buffering hd hreleased hbytes hwithin hbuffer hroom =>
    have hceil := exceeds_iff hceiling hbytes hwithin body
    rcases accept_buffering hd hreleased hbytes hbuffer hroom body eos releases with
      ⟨hexceeds, hnone⟩ | ⟨hunder, hfits, hresult⟩
    · exact .inl ⟨hexceeds.imp hceil.1 fun hover => ⟨hreleased, hover⟩, hnone⟩
    · have hnot : ¬ OverCeiling ceiling (recv.length + chunkLen body) := by rw [← hceil, hunder]; simp
      refine .inr ⟨?_, hresult (within_of_not_over hnot)⟩
      rintro (hover | ⟨-, hover⟩)
      · exact hnot hover
      · omega

/-! ## Whole bodies -/

/-- A body phase under way, with the bytes that came in and the bytes handed onward. -/
structure Transfer where
  ctx : PhaseCtx
  received : Bytes
  onward : Bytes

/-- The next call of the phase; none when it is refused. -/
def Transfer.step (dir : Direction) (pipeline : BodyPipeline) (s : Transfer) (c : BodyCall) : Option Transfer :=
  (dir.call pipeline s.ctx c).map fun result =>
    { ctx := result.2, received := s.received ++ c.body.getD [], onward := s.onward ++ result.1.getD [] }

/-- The bytes of all calls, in order. -/
def inputBytes (calls : List BodyCall) : Bytes := calls.flatMap fun c => c.body.getD []

theorem Transfer.run_received {dir : Direction} {pipeline : BodyPipeline} : ∀ {calls : List BodyCall} {s t : Transfer},
    run (Transfer.step dir pipeline) s calls = some t → t.received = s.received ++ inputBytes calls
  | [], s, t, hrun => by rw [← some.inj hrun]; exact (append_nil _).symm
  | c :: calls, s, t, hrun => by
    obtain ⟨u, hstep, hrest⟩ := run_cons.1 hrun
    obtain ⟨result, -, rfl⟩ := map_eq_some_iff.1 hstep
    rw [run_received hrest, append_assoc]
    rfl

/-- A phase that started in a mode, between two calls. -/
structure Transfer.Between (dir : Direction) (pipeline : BodyPipeline) (m : BodyMode) (s : Transfer) : Prop where
  plain : s.ctx.Plain
  tracks : Tracks (dir.ceiling pipeline) m (dir.delivery s.ctx) s.received s.onward

/-- A phase that starts in a mode, before its first call. -/
structure PhaseCtx.Starts (dir : Direction) (m : BodyMode) (ctx : PhaseCtx) : Prop where
  plain : ctx.Plain
  delivery : dir.delivery ctx = { mode := m, released := false, buffer := none, bytes := 0 }

section

variable {dir : Direction} {pipeline : BodyPipeline} {m : BodyMode}

theorem PhaseCtx.Starts.between {ctx : PhaseCtx} (h : ctx.Starts dir m) :
    Transfer.Between dir pipeline m { ctx, received := [], onward := [] } := by
  refine ⟨h.plain, ?_⟩
  show Tracks _ m (dir.delivery ctx) [] []
  rw [h.delivery]
  cases m with
  | stream => exact .stream rfl rfl rfl rfl (fun _ _ => zero_le _)
  | sizeLimit maxBytes => exact .sizeLimit rfl rfl (zero_le _)
  | streamBuffer maxBytes => exact .buffering rfl rfl rfl (fun _ _ => zero_le _) (.inl ⟨rfl, rfl⟩) (zero_le _)

variable {s : Transfer}

/-- One call is refused for its size and for nothing else. The last one hands onward what is left. -/
theorem Transfer.step_spec (hneeds : dir.needsBody pipeline = true) (hmode : ModeFits m) (hs : s.Between dir pipeline m)
    (hhooks : ∀ i, (c.hooks i).ReadOnly) :
    (s.step dir pipeline c = none ↔
      OverLimit (dir.ceiling pipeline) m (dir.delivery s.ctx).released (s.received.length + chunkLen c.body)) ∧
    ∀ t, s.step dir pipeline c = some t →
      (c.endOfStream = true → t.onward = t.received) ∧ (c.endOfStream = false → t.Between dir pipeline m) := by
  obtain ⟨releases, hcall⟩ := call_plain hneeds hs.plain hhooks
  rcases accept_spec hs.tracks (dir.ceilingFits pipeline) hmode c.body c.endOfStream releases with
    ⟨hover, haccept⟩ | ⟨hunder, ⟨onward, d⟩, haccept, hlast, hmore⟩
  · rw [haccept] at hcall
    have hnone : s.step dir pipeline c = none := by rw [Transfer.step, hcall]; rfl
    exact ⟨iff_of_true hnone hover, fun t ht => by rw [hnone] at ht; cases ht⟩
  · rw [haccept] at hcall
    obtain ⟨ctx', hcall, hplain, hdelivery⟩ := hcall
    have hsome : s.step dir pipeline c = some
        { ctx := ctx', received := s.received ++ c.body.getD [], onward := s.onward ++ onward.getD [] } := by
      rw [Transfer.step, hcall]
      rfl
    refine ⟨iff_of_false (by rw [hsome]; simp) hunder, fun t ht => ?_⟩
    cases hsome.symm.trans ht
    exact ⟨hlast, fun hend => ⟨hplain, hdelivery ▸ hmore hend⟩⟩

theorem Transfer.run_between (hneeds : dir.needsBody pipeline = true) (hmode : ModeFits m) {t : Transfer}
    (hs : s.Between dir pipeline m) {calls : List BodyCall}
    (hcalls : ∀ c ∈ calls, c.endOfStream = false ∧ ∀ i, (c.hooks i).ReadOnly)
    (hrun : run (Transfer.step dir pipeline) s calls = some t) : t.Between dir pipeline m :=
  run_invariant (G := fun _ c => c.endOfStream = false ∧ ∀ i, (c.hooks i).ReadOnly)
    (fun _ _ t hs hc hstep => ((Transfer.step_spec hneeds hmode hs hc.2).2 t hstep).2 hc.1) hs
    (Along.of_forall fun c hc _ => hcalls c hc) hrun

/-- Over the calls of a body that ends with its last one, and filters that only read, a run that is not
refused hands onward the bytes that came in, and a call is refused exactly when the bytes so far and its
own are over the limit. -/
theorem delivery_exact (hneeds : dir.needsBody pipeline = true) (hmode : ModeFits m) {ctx : PhaseCtx}
    (hstart : ctx.Starts dir m) {before : List BodyCall} {last : BodyCall}
    (hbefore : ∀ c ∈ before, c.endOfStream = false) (hlast : last.endOfStream = true)
    (hhooks : ∀ c ∈ before ++ [last], ∀ i, (c.hooks i).ReadOnly) :
    (∀ t, run (Transfer.step dir pipeline) { ctx, received := [], onward := [] } (before ++ [last]) = some t →
      t.onward = inputBytes (before ++ [last])) ∧
    ∀ earlier c rest s, before ++ [last] = earlier ++ c :: rest →
      run (Transfer.step dir pipeline) { ctx, received := [], onward := [] } earlier = some s →
      (s.step dir pipeline c = none ↔ OverLimit (dir.ceiling pipeline) m (dir.delivery s.ctx).released
        (inputBytes (earlier ++ [c])).length) := by
  have hinit : Transfer.Between dir pipeline m { ctx, received := [], onward := [] } := hstart.between
  constructor
  · intro t hrun
    have hreceived : t.received = inputBytes (before ++ [last]) := Transfer.run_received hrun
    obtain ⟨s, hearlier, hend⟩ := run_append.1 hrun
    have hs := Transfer.run_between hneeds hmode hinit
      (fun c hc => ⟨hbefore c hc, hhooks c (mem_append_left _ hc)⟩) hearlier
    obtain ⟨u, hstep, hu⟩ := run_cons.1 hend
    obtain rfl : u = t := some.inj hu
    have hspec := Transfer.step_spec hneeds hmode hs (hhooks last (by simp))
    rw [← hreceived]
    exact (hspec.2 u hstep).1 hlast
  · intro earlier c rest s hsplit hrun
    -- A call that another one follows is not the last.
    have hmem : ∀ c' ∈ earlier, c' ∈ before := by
      intro c' hc'
      have hdrop : before = earlier ++ (c :: rest).dropLast := by
        rw [← dropLast_append_of_ne_nil (cons_ne_nil c rest), ← hsplit, dropLast_concat]
      rw [hdrop]
      exact mem_append_left _ hc'
    have hs := Transfer.run_between hneeds hmode hinit
      (fun c' hc' => ⟨hbefore c' (hmem c' hc'), hhooks c' (mem_append_left _ (hmem c' hc'))⟩) hrun
    have hspec := Transfer.step_spec hneeds hmode hs (hhooks c (by rw [hsplit]; simp))
    have hreceived : s.received = inputBytes earlier := Transfer.run_received hrun
    rw [hspec.1, hreceived]
    simp [inputBytes, chunkLen_eq]

end

/-! A body of three chunks, released at the second one and refused at none. -/

private def tapped : BodyPipeline where
  needsRequestBody := true
  needsResponseBody := false
  requestBodyCeiling := some 16
  responseBodyCeiling := none
  filterCount := 1
  requestBodyFilterIndices := [0]
  responseBodyFilterIndices := []
  failureMode := fun _ => .closed
  requestCeilingFits := by intro limit hlimit; cases hlimit; decide
  responseCeilingFits := nofun

private def untouched (action : FilterAction) : BodyHook := { runs := .ok true, run := fun body => (body, .ok action) }

private def opened : PhaseCtx where
  connectionUpgraded := false
  requestReplayPrefixPending := false
  adaptationRan := false
  adaptedRequestBody := none
  preReadBody := none
  requestSnapshot := true
  request := { mode := .streamBuffer (some 4), released := false, buffer := none, bytes := 0 }
  response := { mode := .stream, released := false, buffer := none, bytes := 0 }
  bodyDoneIndices := []
  responseDeliveryComplete := false

private def held : BodyCall := { body := some [1, 2], endOfStream := false, hooks := fun _ => untouched .proceed }

private def letGo : BodyCall := { body := some [3], endOfStream := false, hooks := fun _ => untouched .release }

private def ending : BodyCall := { body := some [4, 5], endOfStream := true, hooks := fun _ => untouched .bodyDone }

private abbrev transferred : Option Transfer :=
  run (Transfer.step .request tapped) { ctx := opened, received := [], onward := [] } ([held, letGo] ++ [ending])

theorem released_midway_exact : ∃ t, transferred = some t ∧ t.onward = [1, 2, 3, 4, 5] := by
  have hbefore : ∀ c ∈ [held, letGo], c.endOfStream = false := by
    intro c hc
    simp only [List.mem_cons, List.not_mem_nil, or_false] at hc
    rcases hc with rfl | rfl <;> rfl
  have hhooks : ∀ c ∈ [held, letGo] ++ [ending], ∀ i, (c.hooks i).ReadOnly := by
    intro c hc i
    simp only [List.cons_append, List.nil_append, List.mem_cons, List.not_mem_nil, or_false] at hc
    rcases hc with rfl | rfl | rfl <;> exact ⟨⟨true, rfl⟩, fun _ => rfl, fun _ => by simp [held, letGo, ending, untouched]⟩
  have hmode : ModeFits (.streamBuffer (some 4)) := by
    intro limit hlimit
    cases hlimit
    decide
  have hexact : ∀ t, transferred = some t → t.onward = inputBytes ([held, letGo] ++ [ending]) :=
    (delivery_exact rfl hmode ⟨⟨rfl, rfl, rfl, rfl, rfl⟩, rfl⟩ hbefore rfl hhooks).1
  obtain ⟨t, ht⟩ := Option.isSome_iff_exists.1 (show transferred.isSome = true from rfl)
  exact ⟨t, ht, hexact t ht⟩

end Praxis.Body
