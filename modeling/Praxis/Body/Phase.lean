/-
The body phases of a request and of its response. Each call brings a chunk or none, checks it against
the limits, buffers it if the mode says so, shows it to the body filters and leaves in place of it what
is to be handed onward.
-/
import Praxis.Pipeline.Context
import Praxis.Lib.Utf8
import Mathlib.Algebra.Ring.Nat

namespace Praxis.Body

open Praxis.Pipeline (BodyMode FilterAction FilterError FailureMode Rejection checkFailureMode)

abbrev Bytes := List UInt8

/-! ## Counters -/

/-- `u64::MAX` -/
def u64Max : Nat := 2 ^ 64 - 1

def saturatingAdd (a b : Nat) : Nat := min (a + b) u64Max

def checkedAdd (a b : Nat) : Option Nat := if a + b ≤ u64Max then some (a + b) else none

variable (body : Option Bytes)

/-- The length of a chunk, zero for none. -/
def chunkLen : Nat := body.elim 0 List.length

def accumulateBodyBytes (counter : Nat) (body : Option Bytes) : Nat :=
  body.elim counter fun b => saturatingAdd counter b.length

/-- `check_body_size_limit`: whether the total is over the limit, and the total. -/
def checkBodySizeLimit (accumulated maxBytes : Nat) : Bool × Nat :=
  match body with
  | none => (false, accumulated)
  | some chunk =>
    match checkedAdd accumulated chunk.length with
    | none => (true, u64Max)
    | some total => (decide (maxBytes < total), total)

def exceedsBodyCeiling (ceiling : Option Nat) (counted : Nat) (chunk : Option Bytes) : Bool :=
  ceiling.any fun limit => (checkedAdd counted (chunkLen chunk)).all fun total => decide (limit < total)

/-! ## Buffers -/

def defaultMaxBufferBytes : Nat := 67108864

/-- `MAX_BUFFER_BYTES`, which is `isize::MAX` -/
def maxBufferBytes : Nat := 2 ^ 63 - 1

structure BodyBuffer where
  bytes : Bytes
  maxBytes : Nat
deriving Repr, DecidableEq

def BodyBuffer.new (maxBytes : Nat) : BodyBuffer := { bytes := [], maxBytes := min maxBytes maxBufferBytes }

/-- `BodyBuffer::push`; none on overflow. -/
def BodyBuffer.push (buffer : BodyBuffer) (chunk : Bytes) : Option BodyBuffer :=
  if buffer.maxBytes - buffer.bytes.length < chunk.length then none
  else some { buffer with bytes := buffer.bytes ++ chunk }

/-- The body state of one direction. -/
structure Delivery where
  mode : BodyMode
  released : Bool
  buffer : Option BodyBuffer
  bytes : Nat
deriving Repr, DecidableEq

/-- `accumulate_stream_buffer`: whether the buffer overflowed, the chunk for the filters, and the buffer. -/
def accumulateStreamBuffer (buffer : Option BodyBuffer) (eos : Bool) (maxBytes : Option Nat) :
    Bool × Option Bytes × Option BodyBuffer :=
  let freeze (buffer : Option BodyBuffer) : Bool × Option Bytes × Option BodyBuffer :=
    if eos then (false, buffer.map BodyBuffer.bytes, none) else (false, body, buffer)
  match body with
  | none => freeze buffer
  | some chunk =>
    let current := buffer.getD (.new (maxBytes.getD defaultMaxBufferBytes))
    match current.push chunk with
    | none => (true, body, some current)
    | some pushed => freeze (some pushed)

def suppressStreamBufferChunk (isStreamBuffer released eos : Bool) : Option Bytes :=
  if isStreamBuffer && !released && !eos then none else body

def isStreamBuffer : BodyMode → Bool
  | .streamBuffer _ => true
  | _ => false

def isSizeLimit : BodyMode → Bool
  | .sizeLimit _ => true
  | _ => false

def releaseStreamBuffer (d : Delivery) (eos : Bool) : Option Bytes × Delivery :=
  if isStreamBuffer d.mode && !d.released then
    if eos then (body, { d with released := true, mode := .stream })
    else (d.buffer.map BodyBuffer.bytes, { d with released := true, mode := .stream, buffer := none })
  else (body, d)

/-! ## Filters -/

/-- A body filter in one call: whether the request phase and its conditions let it run, and what its
hook does. -/
structure BodyHook where
  runs : Except FilterError Bool
  run : Option Bytes → Option Bytes × Except FilterError FilterAction

inductive BodyFilterOutcome where
  | bodyDone
  | proceed
  | released
  | rejected (rejection : Rejection)

def dispatchBodyResult (result : Except FilterError FilterAction) (failureMode : FailureMode) :
    Except FilterError BodyFilterOutcome :=
  match result with
  | .ok .proceed | .ok (.terminalResponse _) | .ok (.streamingTerminalResponse _) => .ok .proceed
  | .ok .release => .ok .released
  | .ok (.reject rejection) => .ok (.rejected rejection)
  | .ok .bodyDone => .ok .bodyDone
  | .error error => (checkFailureMode error failureMode).map fun _ => .proceed

/-- What of a pipeline the body phases use. Limits are machine words. -/
structure BodyPipeline where
  needsRequestBody : Bool
  needsResponseBody : Bool
  requestBodyCeiling : Option Nat
  responseBodyCeiling : Option Nat
  filterCount : Nat
  requestBodyFilterIndices : List Nat
  responseBodyFilterIndices : List Nat
  failureMode : Nat → FailureMode
  requestCeilingFits : ∀ limit ∈ requestBodyCeiling, limit ≤ u64Max
  responseCeilingFits : ∀ limit ∈ responseBodyCeiling, limit ≤ u64Max

/-- The loop of the body executors, over the filters that declared body access. -/
def runBodyFilters (failureMode : Nat → FailureMode) (hooks : Nat → BodyHook) :
    List Nat → List Bool → Bool → Option Bytes → Except FilterError FilterAction × List Bool × Option Bytes
  | [], done, released, body => (.ok (if released then .release else .proceed), done, body)
  | i :: rest, done, released, body =>
    if done[i]? = some true then runBodyFilters failureMode hooks rest done released body
    else
      match (hooks i).runs with
      | .error error => (.error error, done, body)
      | .ok false => runBodyFilters failureMode hooks rest done released body
      | .ok true =>
        match (hooks i).run body with
        | (body, result) =>
          match dispatchBodyResult result (failureMode i) with
          | .error error => (.error error, done, body)
          | .ok .proceed => runBodyFilters failureMode hooks rest done released body
          | .ok .released => runBodyFilters failureMode hooks rest done true body
          | .ok .bodyDone => runBodyFilters failureMode hooks rest (done.set i true) released body
          | .ok (.rejected rejection) => (.ok (.reject rejection), done, body)

def ensureBodyDoneIndices (done : List Bool) (count : Nat) : List Bool :=
  (done ++ List.replicate count false).take count

/-! ## The phases -/

/-- What of the request context the body phases use. -/
structure PhaseCtx where
  connectionUpgraded : Bool
  requestReplayPrefixPending : Bool
  adaptationRan : Bool
  adaptedRequestBody : Option (List Bytes)
  preReadBody : Option (List Bytes)
  requestSnapshot : Bool
  request : Delivery
  response : Delivery
  bodyDoneIndices : List Bool
  responseDeliveryComplete : Bool

/-- A call of a body phase. -/
structure BodyCall where
  body : Option Bytes
  endOfStream : Bool
  hooks : Nat → BodyHook

/-- The chunk at the front of a queue, and the queue, none once it is empty. -/
def popChunk (queue : Option (List Bytes)) : Option Bytes × Option (List Bytes) :=
  (queue.bind List.head?, (queue.map List.tail).filter fun rest => !rest.isEmpty)

/-- `drain_pre_read_body`; none when no pre-read body is being drained. -/
def drainPreReadBody (ctx : PhaseCtx) : Option (Option Bytes × PhaseCtx) :=
  if ctx.adaptationRan then
    let (body, queue) := popChunk ctx.adaptedRequestBody
    some (body, { ctx with adaptedRequestBody := queue })
  else if ctx.preReadBody.isSome then
    let (body, queue) := popChunk ctx.preReadBody
    some (body, { ctx with preReadBody := queue })
  else none

def replayPrefixBaseline (d : Delivery) (body : Option Bytes) : Nat × Delivery :=
  match body with
  | none => (d.bytes, d)
  | some b =>
    (d.bytes - b.length, if isStreamBuffer d.mode && !d.released then { d with buffer := none } else d)

structure RequestBodyHalt where
  reason : String
  rejection : Option Rejection
  status : Option Nat

def RequestBodyHalt.refused (reason : String) (rejection : Rejection) : RequestBodyHalt :=
  { reason, rejection := some rejection, status := some rejection.status }

def bodyLimitRejection : Rejection :=
  { Rejection.ofStatus 413 with
    headers := [("content-type", "application/json")]
    body := some (Praxis.Lib.utf8 "\x7b\"error\":\"request body too large\"\x7d") }

/-- The mode's arm before the filters run: the chunk they get to see, the buffer, and the count they
start from; an overflow of the buffer is an error. -/
def beforeFilters (d : Delivery) (prior : Nat) (body : Option Bytes) (eos : Bool) :
    Except (Option BodyBuffer) (Option Bytes × Option BodyBuffer × Nat) :=
  match d.mode, d.released with
  | .streamBuffer maxBytes, false =>
    match accumulateStreamBuffer body d.buffer eos maxBytes with
    | (true, _, buffer) => .error buffer
    | (false, body, buffer) => .ok (body, buffer, if eos then 0 else prior)
  | _, _ => .ok (body, d.buffer, prior)

/-- What is handed onward after the filters let the chunk pass. -/
def afterFilters (d : Delivery) (buffering : Bool) (action : FilterAction) (body : Option Bytes) (eos : Bool) :
    Option Bytes × Delivery :=
  match action with
  | .release => releaseStreamBuffer body d eos
  | _ => (suppressStreamBufferChunk body buffering d.released eos, d)

/-- Why a call of a body phase fails. -/
inductive BodyFault where
  | globalLimit
  | sizeLimit
  | streamBufferLimit
  | noSnapshot
  | rejected (rejection : Rejection)
  | failed (error : FilterError)

/-- What the two phases have in common, for the ceiling and the filters of the direction, from the count
`prior`. -/
def runBody (failureMode : Nat → FailureMode) (ceiling : Option Nat) (indices : List Nat) (snapshot : Bool) (prior : Nat)
    (d : Delivery) (done : List Bool) (call : BodyCall) : Except BodyFault Unit × Option Bytes × Delivery × List Bool :=
  if !isSizeLimit d.mode && exceedsBodyCeiling ceiling prior call.body then (.error .globalLimit, call.body, d, done)
  else
    match d.mode with
    | .sizeLimit maxBytes =>
      match checkBodySizeLimit call.body prior maxBytes with
      | (true, total) => (.error .sizeLimit, call.body, { d with bytes := total }, done)
      | (false, total) => (.ok (), call.body, { d with bytes := total }, done)
    | _ =>
      match beforeFilters d prior call.body call.endOfStream with
      | .error buffer => (.error .streamBufferLimit, call.body, { d with buffer }, done)
      | .ok (body, buffer, count) =>
        if !snapshot then (.error .noSnapshot, body, { d with buffer, bytes := count }, done)
        else
          let counted := { d with buffer, bytes := accumulateBodyBytes count body }
          match runBodyFilters failureMode call.hooks indices done false body with
          | (.error error, done, body) => (.error (.failed error), body, counted, done)
          | (.ok (.reject rejection), done, body) => (.error (.rejected rejection), body, counted, done)
          | (.ok action, done, body) =>
            let (onward, d) := afterFilters counted (isStreamBuffer d.mode) action body call.endOfStream
            (.ok (), onward, d, done)

/-- The halts of the request phase. -/
def BodyFault.requestHalt : BodyFault → RequestBodyHalt
  | .globalLimit => .refused "request body exceeds global body limit" bodyLimitRejection
  | .sizeLimit => .refused "request body exceeds maximum size" bodyLimitRejection
  | .streamBufferLimit => .refused "request body exceeds stream_buffer size limit" bodyLimitRejection
  | .noSnapshot =>
    { reason := "request snapshot not set when request body hooks are active", rejection := none, status := none }
  | .rejected rejection => .refused "request body rejected by filter pipeline" rejection
  | .failed error =>
    { reason := "request body filter error: " ++ error.message, rejection := some (.ofStatus 500), status := none }

/-- `run_request_body`. A call refused for its size counts the bytes it was refused for, and one without
a snapshot counts nothing. -/
def runRequestBody (pipeline : BodyPipeline) (ctx : PhaseCtx) (call : BodyCall) :
    Except RequestBodyHalt Unit × Option Bytes × PhaseCtx :=
  let replayPrefix := ctx.requestReplayPrefixPending
  let ctx := { ctx with requestReplayPrefixPending := false }
  if ctx.connectionUpgraded then (.ok (), call.body, ctx)
  else
    match drainPreReadBody ctx with
    | some (body, ctx) => (.ok (), body, ctx)
    | none =>
      if !pipeline.needsRequestBody then (.ok (), call.body, ctx)
      else
        let (prior, d) := if replayPrefix then replayPrefixBaseline ctx.request call.body else (ctx.request.bytes, ctx.request)
        let attempted := saturatingAdd prior (chunkLen call.body)
        match runBody pipeline.failureMode pipeline.requestBodyCeiling pipeline.requestBodyFilterIndices ctx.requestSnapshot
          prior d (ensureBodyDoneIndices ctx.bodyDoneIndices pipeline.filterCount) call with
        | (.ok _, body, request, done) => (.ok (), body, { ctx with request, bodyDoneIndices := done })
        | (.error fault, body, request, done) =>
          let request :=
            match fault with
            | .globalLimit | .streamBufferLimit => { request with bytes := attempted }
            | .noSnapshot => { request with bytes := ctx.request.bytes }
            | _ => request
          (.error fault.requestHalt, body, { ctx with request, bodyDoneIndices := done })

/-- The errors of the response phase. -/
def BodyFault.responseError : BodyFault → String
  | .globalLimit => "response body exceeds global body limit"
  | .sizeLimit => "response body exceeds maximum size"
  | .streamBufferLimit => "response body exceeds stream_buffer size limit"
  | .noSnapshot => "request snapshot not set when response body hooks are active"
  | .rejected rejection => "response body filter rejected response with status " ++ toString rejection.status
  | .failed error => "response body filter error: " ++ error.message

def markDeliveredAtEos (ctx : PhaseCtx) (eos : Bool) : PhaseCtx :=
  { ctx with responseDeliveryComplete := ctx.responseDeliveryComplete || eos }

def runResponseBody (pipeline : BodyPipeline) (ctx : PhaseCtx) (call : BodyCall) :
    Except String Unit × Option Bytes × PhaseCtx :=
  if ctx.connectionUpgraded then (.ok (), call.body, ctx)
  else if !pipeline.needsResponseBody then (.ok (), call.body, markDeliveredAtEos ctx call.endOfStream)
  else
    match runBody pipeline.failureMode pipeline.responseBodyCeiling pipeline.responseBodyFilterIndices.reverse
      ctx.requestSnapshot ctx.response.bytes ctx.response
      (ensureBodyDoneIndices ctx.bodyDoneIndices pipeline.filterCount) call with
    | (.ok _, body, response, done) =>
      (.ok (), body, markDeliveredAtEos { ctx with response, bodyDoneIndices := done } call.endOfStream)
    | (.error fault, body, response, done) =>
      (.error fault.responseError, body, { ctx with response, bodyDoneIndices := done })

end Praxis.Body
