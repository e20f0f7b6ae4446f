/-
Bodies that are whole in memory. The first attempt takes the body from the context; later ones take
the copy that was kept for retries, and where none was kept the upload's own. The retry guard is
what keeps a body too large for its copy from ever being sent a second time.
-/
import Praxis.Hyper.Delivery
import Praxis.Retry.Policy

namespace Praxis.Hyper

open Option Praxis.Retry

variable {T : Type}

/-! ## The body of a request -/

/-- What the request phase stored, in order: the pre-read with the number of bytes read and whether a
filter wrote to it, the bound-upstream rewrite, the selected-upstream adaptation. -/
structure Stored where
  received : Nat
  streamingWriterRan : Bool
  preRead : Option (Bytes × Nat × Bool)
  canonical : Option Bytes
  adapted : Option (Option Bytes)
deriving Repr, DecidableEq

namespace Stored

/-- The context the request phase leaves. -/
def ctx (stored : Stored) : BodyCtx :=
  let ctx := BodyCtx.fresh stored.received stored.streamingWriterRan
  let ctx := stored.preRead.elim ctx fun (forwarded, original, writerRan) => ctx.finishPreRead forwarded original writerRan
  let ctx := stored.canonical.elim ctx ctx.storeCanonicalRequestBody
  stored.adapted.elim ctx ctx.storeAdaptedRequestBody

/-- The body the request forwards: the last one stored. -/
def final (stored : Stored) : Option Bytes :=
  stored.adapted.map (·.getD []) <|> stored.canonical <|> stored.preRead.map Prod.fst

end Stored

/-- The bytes of what is queued. -/
def payload (queue : List (Item T)) : Bytes :=
  queue.flatMap fun
    | .data body => body
    | .finish _ => []

theorem payload_whole {chunks : List Bytes} (trailers : Option T) :
    payload (chunks.map .data ++ [.finish trailers]) = chunks.flatten := by
  simp [payload, List.flatMap_map, List.flatMap_id']

/-! ## The contexts in between -/

/-- How a context holds a body: untouched, or taken by an attempt and kept in a copy. -/
structure Holds (chunks : List Bytes) (buffered : Option (List Bytes)) (ctx : BodyCtx) : Prop where
  stamped : ∀ len, ctx.stampedLength = some len → len = chunks.flatten.length
  adapted : ctx.retainedAdaptedRequestBody.isSome = true →
    ctx.adaptedRequestBodyLen = some chunks.flatten.length ∧
      ctx.retainedAdaptedRequestBody = some ((retryCopy chunks chunks.flatten.length).getD []) ∧
      ∀ body, ctx.adaptedRequestBody = some body → body = chunks
  preRead : ctx.retainedAdaptedRequestBody = none →
    (∀ body, ctx.retainedPreReadBody = some body → body = chunks) ∧
      (ctx.preReadBody = some chunks ∨ ctx.preReadBody = none ∧ buffered = some chunks)

/-- An attempt may be made: the body is untouched, or its copy was kept. -/
def Ready (chunks : List Bytes) (ctx : BodyCtx) : Prop :=
  ctx.retainedAdaptedRequestBody.isSome = true → ctx.adaptedRequestBody = some chunks ∨
    chunks.flatten.length ≤ maxRetryBodyLimitBytes

section

variable {chunks : List Bytes} {buffered : Option (List Bytes)} {ctx : BodyCtx}

/-- An adapted body is untouched, or put back from a copy that is the whole body. -/
theorem reseedRetryBody_adapted (hholds : Holds chunks buffered ctx) (hready : Ready chunks ctx)
    (hadapts : ctx.retainedAdaptedRequestBody.isSome = true) :
    ctx.reseedRetryBody = { ctx with adaptedRequestBody := some chunks } := by
  obtain ⟨-, hkept, hbody⟩ := hholds.adapted hadapts
  rw [BodyCtx.reseedRetryBody, if_pos hadapts]
  cases hadapted : ctx.adaptedRequestBody with
  | some body =>
    obtain rfl := hbody body hadapted
    rw [if_neg (by simp), ← hadapted]
  | none =>
    have hsmall : chunks.flatten.length ≤ maxRetryBodyLimitBytes := by
      rcases hready hadapts with huntouched | hsmall
      · cases hadapted.symm.trans huntouched
      · exact hsmall
    rw [if_pos (by simp), hkept, retryCopy, if_pos hsmall, getD_some]

/-- A pre-read body is untouched, put back from a copy, or left to the upload's own copy. -/
theorem reseedRetryBody_preRead (hholds : Holds chunks buffered ctx)
    (hnone : ctx.retainedAdaptedRequestBody = none) : ∃ preReadBody,
    ctx.reseedRetryBody = { ctx with preReadBody } ∧
      (preReadBody = some chunks ∨ preReadBody = none ∧ buffered = some chunks) := by
  obtain ⟨hkept, hbody⟩ := hholds.preRead hnone
  rw [BodyCtx.reseedRetryBody, if_neg (by simp [hnone])]
  rcases hbody with huntouched | ⟨htaken, hbuffered⟩
  · rw [if_neg (by simp [huntouched])]
    exact ⟨ctx.preReadBody, rfl, .inl huntouched⟩
  · cases hcopy : ctx.retainedPreReadBody with
    | some body =>
      obtain rfl := hkept body hcopy
      rw [if_pos (by simp [htaken])]
      exact ⟨_, rfl, .inl rfl⟩
    | none =>
      rw [if_neg (by simp)]
      exact ⟨ctx.preReadBody, by rw [← hcopy], .inr ⟨htaken, hbuffered⟩⟩

/-- What an attempt takes from a reseeded context is the whole body, and it stays available. -/
theorem takeBuffered_reseeded {u : Upload T} (hholds : Holds chunks u.buffered ctx) (hready : Ready chunks ctx) :
    (u.takeBuffered ctx.reseedRetryBody).1 = chunks ∧
      Holds chunks (u.takeBuffered ctx.reseedRetryBody).2.1.buffered (u.takeBuffered ctx.reseedRetryBody).2.2 := by
  by_cases hadapts : ctx.retainedAdaptedRequestBody.isSome = true
  · obtain ⟨hlen, hkept, -⟩ := hholds.adapted hadapts
    have htake : u.takeBuffered ctx.reseedRetryBody =
        (chunks, { u with buffered := some chunks }, { ctx with adaptedRequestBody := none }) := by
      simp only [reseedRetryBody_adapted hholds hready hadapts, Upload.takeBuffered, hadapts, if_true]
    rw [htake]
    exact ⟨rfl, hholds.stamped, fun _ => ⟨hlen, hkept, nofun⟩, fun hnone => absurd hnone (isSome_iff_ne_none.1 hadapts)⟩
  · have hretained := not_isSome_iff_eq_none.1 hadapts
    obtain ⟨preReadBody, hreseed, hbody⟩ := reseedRetryBody_preRead hholds hretained
    have htake : u.takeBuffered ctx.reseedRetryBody =
        (chunks, { u with buffered := some chunks }, { ctx with preReadBody := none }) := by
      rw [hreseed]
      rcases hbody with rfl | ⟨rfl, hbuffered⟩
      · simp only [Upload.takeBuffered, hadapts, Bool.false_eq_true, if_false]
      · simp only [Upload.takeBuffered, hadapts, Bool.false_eq_true, if_false, hbuffered, getD_some]
        rw [← hbuffered]
    rw [htake]
    exact ⟨rfl, hholds.stamped, fun hsome => absurd hsome hadapts,
      fun _ => ⟨(hholds.preRead hretained).1, .inr ⟨rfl, rfl⟩⟩⟩

theorem Holds.reseed (hholds : Holds chunks buffered ctx) (hready : Ready chunks ctx) :
    Holds chunks buffered ctx.reseedRetryBody ∧ Ready chunks ctx.reseedRetryBody := by
  by_cases hadapts : ctx.retainedAdaptedRequestBody.isSome = true
  · obtain ⟨hlen, hkept, -⟩ := hholds.adapted hadapts
    rw [reseedRetryBody_adapted hholds hready hadapts]
    exact ⟨⟨hholds.stamped, fun _ => ⟨hlen, hkept, fun body hbody => (some.inj hbody).symm⟩,
      fun hnone => absurd hnone (isSome_iff_ne_none.1 hadapts)⟩, fun _ => .inl rfl⟩
  · have hretained := not_isSome_iff_eq_none.1 hadapts
    obtain ⟨preReadBody, hreseed, hbody⟩ := reseedRetryBody_preRead hholds hretained
    rw [hreseed]
    exact ⟨⟨hholds.stamped, fun hsome => absurd hsome hadapts, fun _ => ⟨(hholds.preRead hretained).1, hbody⟩⟩,
      fun hsome => absurd hsome hadapts⟩

theorem Ready.of_admitted (hholds : Holds chunks buffered ctx) {rctx : RetryCtx} {policy : RetryPolicy}
    {out : RetryOutcome} (hadmitted : Admitted rctx policy out)
    (hctx : rctx.body.stampedLength = ctx.stampedLength) : Ready chunks ctx := by
  intro hadapts
  have hlen := (hholds.adapted hadapts).1
  have hstamped : ctx.stampedLength = some chunks.flatten.length := by
    rw [BodyCtx.stampedLength, hlen]
    rfl
  exact .inr (hadmitted.stampedLength_le (hctx.trans hstamped))

end

/-! ## What the request phase leaves -/

theorem holds_preRead (recv original : Nat) (streamed writerRan : Bool) (body : Bytes) :
    Holds (chunksOf body) none ((BodyCtx.fresh recv streamed).finishPreRead body original writerRan) := by
  refine ⟨fun len hstamped => ?_, nofun, fun _ => ⟨fun kept hkept => ?_, .inl rfl⟩⟩
  · cases writerRan with
    | true => simpa [BodyCtx.stampedLength, BodyCtx.finishPreRead, BodyCtx.fresh, eq_comm] using hstamped
    | false => cases hstamped
  · cases writerRan with
    | true => exact eq_of_mem_retryCopy hkept
    | false => cases hkept

theorem holds_canonical {ctx : BodyCtx} (hbody : ctx.retainedAdaptedRequestBody = none)
    (hlen : ctx.adaptedRequestBodyLen = none) (body : Bytes) :
    Holds (chunksOf body) none (ctx.storeCanonicalRequestBody body) := by
  refine ⟨fun len hstamped => ?_, fun hsome => ?_, fun _ => ⟨fun kept => eq_of_mem_retryCopy, .inl rfl⟩⟩
  · simpa [BodyCtx.stampedLength, BodyCtx.storeCanonicalRequestBody, hlen, eq_comm] using hstamped
  · have hsome : ctx.retainedAdaptedRequestBody.isSome = true := hsome
    rw [hbody] at hsome
    cases hsome

theorem holds_adapted {ctx : BodyCtx} (body : Option Bytes) :
    Holds (chunksOf (body.getD [])) none (ctx.storeAdaptedRequestBody body) ∧
      Ready (chunksOf (body.getD [])) (ctx.storeAdaptedRequestBody body) := by
  have hstore : ctx.storeAdaptedRequestBody body =
      { ctx with
        retainedAdaptedRequestBody :=
          some ((retryCopy (chunksOf (body.getD [])) (body.getD []).length).getD [])
        adaptedRequestBody := some (chunksOf (body.getD []))
        adaptedRequestBodyLen := some (body.getD []).length } := by cases body <;> rfl
  rw [hstore]
  refine ⟨⟨fun len hstamped => ?_, fun _ => ⟨?_, ?_, fun kept hkept => (some.inj hkept).symm⟩, nofun⟩,
    fun _ => .inl rfl⟩
  · rw [flatten_chunksOf]
    exact (some.inj hstamped).symm
  · rw [flatten_chunksOf]
  · rw [flatten_chunksOf]

theorem Stored.holds {stored : Stored} {body : Bytes} (hfinal : stored.final = some body) :
    Holds (chunksOf body) none stored.ctx ∧ Ready (chunksOf body) stored.ctx := by
  obtain ⟨recv, streamed, preRead, canonical, adapted⟩ := stored
  have hready : ∀ {ctx}, ctx.retainedAdaptedRequestBody = none → Ready (chunksOf body) ctx :=
    fun hnone hsome => by rw [hnone] at hsome; cases hsome
  match adapted, canonical, preRead with
  | some adapted, _, _ =>
    obtain rfl := some.inj hfinal
    exact holds_adapted adapted
  | none, some canonical, preRead =>
    obtain rfl := some.inj hfinal
    have hbefore : ∀ preRead, (Stored.ctx ⟨recv, streamed, preRead, none, none⟩).retainedAdaptedRequestBody = none ∧
      (Stored.ctx ⟨recv, streamed, preRead, none, none⟩).adaptedRequestBodyLen = none := by
      rintro (_ | _) <;> exact ⟨rfl, rfl⟩
    exact ⟨holds_canonical (hbefore preRead).1 (hbefore preRead).2 canonical, hready (hbefore preRead).1⟩
  | none, none, some (forwarded, original, writerRan) =>
    obtain rfl := some.inj hfinal
    exact ⟨holds_preRead recv original streamed writerRan forwarded, hready rfl⟩
  | none, none, none => cases hfinal

/-! ## Every attempt -/

namespace State

variable {s t : State T} {sess : Session T} {m : Mode} {chunks : List Bytes}

/-- The body fields when the retry policy is asked. -/
def ctxAsked (s : State T) : Event T → BodyCtx
  | .connect .. => s.ctx.reseedRetryBody
  | _ => s.ctx

/-- Another attempt is only asked for where `should_retry` admitted it. -/
def Admits (s : State T) (e : Event T) : Prop :=
  e.retries = true → ∃ rctx policy out budget jitter backoff,
    rctx.body = s.ctxAsked e ∧ shouldRetry rctx policy out budget jitter = .retry backoff

variable {out : Outcome} {e : Event T}

theorem outcome_of_fail (hidle : (s.fail sess out).phase = .idle) : out = .retry := by
  cases out with
  | retry => rfl
  | failed | reply => cases hidle

/-- What a step leaves of the body in memory, and what it takes to be back at the start. -/
structure Framed (s t : State T) (e : Event T) : Prop where
  ctx : t.ctx = s.ctx
  buffered : t.upload.buffered = s.upload.buffered
  idle : t.phase = .idle → e.retries = true

theorem framed_fail {upload : Upload T} (hbuffered : upload.buffered = s.upload.buffered) {outputs : List Bytes}
    {trailers : Option T} (hagain : Again upload e.retries out) :
    Framed s ({ s with upload, outputs, trailers }.fail sess out) e :=
  ⟨follow_ctx, (congrArg Upload.buffered (follow_upload)).trans hbuffered,
    fun hidle => (hagain (outcome_of_fail hidle)).2⟩

theorem framed_of_turn (hb : s.Base m) (hbusy : s.phase ≠ .idle) (hturn : Turn s e t) : Framed s t e := by
  have hbuffered : ∀ {sess sess' upload}, Moved s.upload sess upload sess' → upload.buffered = s.upload.buffered := by
    rintro _ _ _ hmoved
    obtain ⟨outgoing, stalledSince, rfl⟩ := hmoved.upload
    rfl
  have haccepted : ∀ {filter frame h2 result upload}, s.upload.live = true →
      s.upload.accept filter frame h2 = (result, upload) → upload.buffered = s.upload.buffered := by
    intro filter frame h2 result upload hlive haccept
    exact (haccept ▸ Upload.accept_spec (hb.live hlive) filter frame h2 : Upload.Accepted s.upload upload _ _ _).buffered
  cases hturn with
  | refused hidle | unsent hidle | begun hidle => exact absurd hidle hbusy
  | flushed hph hmoved | answered atEnd hph hmoved => exact ⟨rfl, hbuffered hmoved, nofun⟩
  | lost hph hmoved hagain => exact framed_fail (hbuffered hmoved) hagain
  | accepted hph hlive haccept => exact ⟨rfl, haccepted hlive haccept, fun hidle => absurd hidle hbusy⟩
  | rejected hph hlive haccept hagain => exact framed_fail (haccepted hlive haccept) hagain
  | bodyless hph => exact ⟨rfl, rfl, nofun⟩
  | carried ended hph htaken =>
    cases ended with
    | none | some => exact ⟨rfl, rfl, nofun⟩
  | pushed hph hqueued hmoved => exact ⟨rfl, hbuffered hmoved, nofun⟩
  | dropped hph hqueued hmoved hfails => exact ⟨rfl, (hbuffered hmoved :), nofun⟩
  | abandoned hph hlive haccept => exact ⟨rfl, (haccepted hlive haccept :), fun hidle => absurd hidle hbusy⟩
  | disconnected hph hlive haccept => exact ⟨rfl, haccepted hlive haccept, nofun⟩

/-- The request's body is at hand, for this attempt or the next. -/
structure Whole (chunks : List Bytes) (s : State T) : Prop where
  inv : s.Inv .buffered
  holds : Holds chunks s.upload.buffered s.ctx
  ready : s.phase = .idle → Ready chunks s.ctx

theorem Whole.of_framed (h : Whole chunks s) (ht : t.Inv .buffered) (hadmits : s.Admits e) (hctx : s.ctxAsked e = s.ctx)
    (hframed : Framed s t e) : Whole chunks t where
  inv := ht
  holds := by rw [hframed.buffered, hframed.ctx]; exact h.holds
  ready hidle := by
    obtain ⟨rctx, policy, out, budget, jitter, backoff, hbody, hretry⟩ := hadmits (hframed.idle hidle)
    rw [hframed.ctx]
    exact .of_admitted h.holds (shouldRetry_admits hretry) (by rw [hbody, hctx])

/-- An attempt that reaches the upstream queues the whole body. -/
theorem begin_whole {upload : Upload T} {ctx : BodyCtx} {h2 : Bool} {writeTimeout : Option Nat}
    (h : Whole chunks s) (hidle : s.phase = .idle)
    (hbegin : s.upload.begin s.ctx.reseedRetryBody h2 writeTimeout = .ok (upload, ctx)) :
    payload (items upload.outgoing) = chunks.flatten ∧ Holds chunks upload.buffered ctx := by
  have hmode := h.inv.base.mode
  obtain ⟨htaken, hholds⟩ := takeBuffered_reseeded
    (u := { s.upload with outgoing := [], stalledSince := none, writeTimeout }) h.holds (h.ready hidle)
  unfold Upload.begin at hbegin
  split at hbegin
  · cases hbegin
  simp only [hmode] at hbegin hholds htaken
  cases hbegin
  rw [htaken]
  refine ⟨?_, hholds⟩
  obtain ⟨buffered, hupload, -⟩ := Upload.takeBuffered_spec
    { s.upload with mode := .buffered, outgoing := [], stalledSince := none, writeTimeout } s.ctx.reseedRetryBody
  rw [Upload.items_queueWhole _ _ (by rw [hupload]), payload_whole]

theorem whole_step (h : Whole chunks s) (hadmits : s.Admits e) (hstep : s.step e = some t) : Whole chunks t := by
  have ht := inv_step h.inv hstep
  have hturn := step_turn hstep
  by_cases hidle : s.phase = .idle
  · have hready := h.ready hidle
    cases hturn with
    | refused => exact ⟨ht, by simpa using h.holds, fun _ => by simpa using hready⟩
    | unsent =>
      obtain ⟨hholds, hready⟩ := h.holds.reseed hready
      exact ⟨ht, by simpa [State.fail, State.release] using hholds, fun _ => by simpa [State.fail, State.release] using hready⟩
    | begun _ hbegin => exact ⟨ht, (begin_whole h hidle hbegin).2, nofun⟩
    | _ => simp_all
  · refine h.of_framed ht hadmits ?_ (framed_of_turn h.inv.base hidle hturn)
    cases e with
    | connect => unfold step at hstep; split at hstep <;> contradiction
    | _ => rfl

theorem whole_start {stored : Stored} {body : Bytes} (hfinal : stored.final = some body) (done : Bool)
    (preReadTrailers : Option T) : Whole (chunksOf body) (start done preReadTrailers stored.ctx) := by
  obtain ⟨hholds, hready⟩ := Stored.holds hfinal
  have hmode : (Upload.new done preReadTrailers stored.ctx).mode = .buffered := by
    have hstored : (stored.ctx.preReadBody.isSome || stored.ctx.retainedAdaptedRequestBody.isSome) = true := by
      cases hretained : stored.ctx.retainedAdaptedRequestBody with
      | some kept => simp
      | none =>
        rcases (hholds.preRead hretained).2 with hbody | ⟨-, hnone⟩
        · simp [hbody]
        · cases hnone
    simp [Upload.new, hstored]
  exact ⟨hmode ▸ inv_start done preReadTrailers stored.ctx, hholds, fun _ => hready⟩

theorem begin_of_sending (hidle : s.phase = .idle) (hstep : s.step e = some t) (hsending : t.phase = .sending sess) :
    ∃ h2 writeTimeout ctx,
    s.upload.begin s.ctx.reseedRetryBody h2 writeTimeout = .ok (t.upload, ctx) := by
  have hnot : ∀ (u : State T) (out : Outcome), (u.follow out).phase ≠ .sending sess := by
    intro u out hph
    rcases phase_follow u out with hfollow | hfollow
    · cases hfollow.symm.trans hph
    · cases hfollow.symm.trans hph
  cases step_turn hstep with
  | refused | unsent => exact absurd hsending (hnot _ _)
  | begun _ hbegin => exact ⟨_, _, _, hbegin⟩
  | _ => simp_all

/-- Every attempt whose predecessors were admitted by the retry guard queues the bytes of the request's
final body, and a length stamped on its head is their number. -/
theorem buffered_body_replayed {stored : Stored} {body : Bytes} (hfinal : stored.final = some body) (done : Bool)
    (preReadTrailers : Option T) {events : List (Event T)}
    (hadmits : Lib.Along step Admits (start done preReadTrailers stored.ctx) events) :
    Lib.Along step (fun s e => ∀ t sess, s.step e = some t → s.phase = .idle → t.phase = .sending sess →
        payload (items t.upload.outgoing) = body ∧
          ∀ len, s.ctx.reseedRetryBody.stampedLength = some len → len = body.length)
      (start done preReadTrailers stored.ctx) events := by
  refine Lib.Along.of_invariant (I := Whole (chunksOf body)) ?_ (fun s e t h hadmits hstep => whole_step h hadmits hstep)
    (whole_start hfinal done preReadTrailers) hadmits
  intro s e h _ t sess hstep hidle hsending
  have hreseed := (h.holds.reseed (h.ready hidle)).1
  obtain ⟨h2, writeTimeout, ctx, hbegin⟩ := begin_of_sending hidle hstep hsending
  obtain ⟨hqueued, -⟩ := begin_whole h hidle hbegin
  rw [flatten_chunksOf] at hqueued
  exact ⟨hqueued, fun len hlen => by rw [hreseed.stamped len hlen, flatten_chunksOf]⟩

/-- A canonical body of three bytes, sent, lost and sent again. -/
def resent : Stored := ⟨3, false, none, some [1, 2, 3], none⟩

def sentTwice : List (Event Nat) := [.connect false none true false, .lose true, .connect false none true false]

theorem sentTwice_replayed : resent.final = some [1, 2, 3] ∧
    (Lib.run step (start true none resent.ctx) sentTwice).map (fun s => (s.upload.outgoing, s.ctx.stampedLength)) =
      some ([.last [1, 2, 3]], some 3) ∧
    Lib.Along step (fun s e => ∀ t sess, s.step e = some t → s.phase = .idle → t.phase = .sending sess →
        payload (items t.upload.outgoing) = [1, 2, 3] ∧
          ∀ len, s.ctx.reseedRetryBody.stampedLength = some len → len = [1, 2, 3].length)
      (start true none resent.ctx) sentTwice := by
  refine ⟨rfl, rfl, buffered_body_replayed rfl true none ⟨nofun, fun t ht => ⟨fun _ => ?_, fun t' ht' => ⟨nofun, ?_⟩⟩⟩⟩
  · cases ht
    exact ⟨⟨_, 0, true, 0⟩, { RetryPolicy.legacyDefault with retriableConditions := [.reset] }, .reset, none, 0, _,
      rfl, rfl⟩
  · exact fun _ _ => trivial

end State

end Praxis.Hyper
