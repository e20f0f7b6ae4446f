/-
The request body a context holds once the request phase is over. The pre-read, the bound-upstream
rewrite and the selected-upstream adaptation each store the body they leave; a copy stays behind
for retries as long as it is small enough. Before every attempt the body that the attempt before
took is put back from that copy.
-/
import Mathlib.Data.List.Basic

namespace Praxis.Retry

abbrev Bytes := List UInt8

def maxRetryBodyLimitBytes : Nat := 65536

def defaultRetryBodyLimitBytes : Nat := 65536

/-- The fields of `PingoraRequestCtx` that say which body goes upstream. -/
structure BodyCtx where
  adaptedRequestBody : Option (List Bytes)
  adaptedRequestBodyLen : Option Nat
  mutatedRequestBodyLen : Option Nat
  preReadBody : Option (List Bytes)
  requestBodyBytes : Nat
  retainedAdaptedRequestBody : Option (List Bytes)
  retainedPreReadBody : Option (List Bytes)
  streamingRequestWriterRan : Bool
deriving Repr, DecidableEq

/-- The context before the request phase stored any body. -/
def BodyCtx.fresh (received : Nat) (writerRan : Bool) : BodyCtx where
  adaptedRequestBody := none
  adaptedRequestBodyLen := none
  mutatedRequestBodyLen := none
  preReadBody := none
  requestBodyBytes := received
  retainedAdaptedRequestBody := none
  retainedPreReadBody := none
  streamingRequestWriterRan := writerRan

/-! ## Storing the body -/

/-- A frozen body as a queue of at most one chunk. -/
def chunksOf (body : Bytes) : List Bytes := if body.isEmpty then [] else [body]

@[simp] theorem flatten_chunksOf (body : Bytes) : (chunksOf body).flatten = body := by
  cases body <;> simp [chunksOf]

def retryCopy (chunks : List Bytes) (len : Nat) : Option (List Bytes) :=
  if len ≤ maxRetryBodyLimitBytes then some chunks else none

theorem eq_of_mem_retryCopy {chunks kept : List Bytes} {len : Nat} (h : retryCopy chunks len = some kept) :
    kept = chunks := by
  unfold retryCopy at h
  split at h
  · exact (Option.some.inj h).symm
  · cases h

/-- `PreReadPass::finish`: `forwarded` is what the body filters left of the `original` bytes read. -/
def BodyCtx.finishPreRead (ctx : BodyCtx) (forwarded : Bytes) (original : Nat) (writerRan : Bool) : BodyCtx :=
  { ctx with
    requestBodyBytes := original
    mutatedRequestBodyLen := if writerRan then some forwarded.length else ctx.mutatedRequestBodyLen
    retainedPreReadBody :=
      if writerRan then retryCopy (chunksOf forwarded) forwarded.length else ctx.retainedPreReadBody
    preReadBody := some (chunksOf forwarded) }

def BodyCtx.storeCanonicalRequestBody (ctx : BodyCtx) (body : Bytes) : BodyCtx :=
  { ctx with
    retainedPreReadBody := retryCopy (chunksOf body) body.length
    preReadBody := some (chunksOf body)
    mutatedRequestBodyLen := some body.length }

/-- `store_adapted_request_body`. Where no copy is kept an empty queue marks that adaptation ran. -/
def BodyCtx.storeAdaptedRequestBody (ctx : BodyCtx) (body : Option Bytes) : BodyCtx :=
  let len := body.elim 0 List.length
  let chunks := body.elim [] chunksOf
  { ctx with
    retainedAdaptedRequestBody := some ((retryCopy chunks len).getD [])
    adaptedRequestBody := some chunks
    adaptedRequestBodyLen := some len }

/-! ## Using the body -/

def BodyCtx.reseedRetryBody (ctx : BodyCtx) : BodyCtx :=
  if ctx.retainedAdaptedRequestBody.isSome then
    if ctx.adaptedRequestBody.isNone then { ctx with adaptedRequestBody := ctx.retainedAdaptedRequestBody }
    else ctx
  else if ctx.preReadBody.isNone && ctx.retainedPreReadBody.isSome then
    { ctx with preReadBody := ctx.retainedPreReadBody }
  else ctx

/-- The length `apply_body_length` puts on the head as `Content-Length`, if a filter wrote the body. -/
def BodyCtx.stampedLength (ctx : BodyCtx) : Option Nat := ctx.adaptedRequestBodyLen <|> ctx.mutatedRequestBodyLen

def BodyCtx.streamingWriterCannotReplay (ctx : BodyCtx) : Bool :=
  ctx.streamingRequestWriterRan && ctx.retainedPreReadBody.isNone && ctx.retainedAdaptedRequestBody.isNone

def BodyCtx.replayBodySize (ctx : BodyCtx) : Nat := max ctx.requestBodyBytes (ctx.stampedLength.getD 0)

theorem BodyCtx.stampedLength_le_replayBodySize {ctx : BodyCtx} {len : Nat} (h : ctx.stampedLength = some len) :
    len ≤ ctx.replayBodySize := by
  simp only [replayBodySize, h, Option.getD_some]
  exact Nat.le_max_right _ _

end Praxis.Retry
