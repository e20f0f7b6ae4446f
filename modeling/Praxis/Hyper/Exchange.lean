/-
The exchange of one request with its upstreams: attempts that connect, send the request body while
they wait for the response head, and either fail, are tried again or are answered; then the relay of
the response, which goes on forwarding what is left of the request body.

The loops of the source become one machine. Its events are what comes from outside: the client's
frames and what the body filters make of them, how much a flush hands over, the upstream's answer,
and whether the retry policy allows another attempt.
-/
import Praxis.Hyper.Upload
import Praxis.Lib.Machine

namespace Praxis.Hyper

open Upload

open Praxis.Retry (Bytes BodyCtx)

variable {T : Type}

/-! ## Reading the response -/

namespace Session

/-- `accept_final`: the final head arrived; `atEnd` when no body follows it. -/
def answer (sess : Session T) (atEnd : Bool) : Session T := { sess with inbound := .body atEnd }

def responseDone (sess : Session T) : Bool :=
  match sess.inbound with
  | .body atEnd => atEnd
  | .ended | .failed => true
  | .awaiting => false

def responseBodyEnded (sess : Session T) : Bool :=
  match sess.inbound with
  | .ended => true
  | .body atEnd => atEnd
  | .awaiting | .failed => false

/-- Whether `completion` is `Ok(Finished)`; it is an error once the exchange failed. -/
def finished (sess : Session T) : Bool :=
  match sess.inbound with
  | .failed => false
  | _ => sess.responseBodyEnded

end Session

/-- What the upstream's body yields: a chunk, which may be seen to be the last, its end, or an error. -/
inductive BodyRead where
  | chunk (atEnd : Bool)
  | ended
  | failed
deriving Repr, DecidableEq

def Session.nextChunk (sess : Session T) (yielded : BodyRead) : BodyRead × Session T :=
  match sess.inbound with
  | .body _ =>
    match yielded with
    | .chunk atEnd => (.chunk atEnd, { sess with inbound := .body atEnd })
    | .ended => (.ended, { sess with inbound := .ended })
    | .failed => (.failed, { sess with inbound := .failed })
  | .ended => (.ended, sess)
  | .failed | .awaiting => (.failed, sess)

/-- The response body was read to its clean end. -/
def Inbound.ReadToEnd : Inbound → Prop
  | .ended => True
  | .body atEnd => atEnd = true
  | .awaiting | .failed => False

theorem Session.readToEnd_of_finished {sess : Session T} (h : sess.finished = true) : sess.inbound.ReadToEnd := by
  unfold finished responseBodyEnded at h
  cases hinbound : sess.inbound with
  | awaiting => rw [hinbound] at h; cases h
  | body atEnd => rw [hinbound] at h; exact h
  | ended => trivial
  | failed => rw [hinbound] at h; cases h

/-! ## The machine -/

/-- `Outcome`, of an attempt that was not answered. -/
inductive Outcome where
  | failed
  | reply
  | retry
deriving Repr, DecidableEq

/-- `after_failure`, with what `connect_failure_retry` says; also `connect`'s error path. -/
def afterFailure (upload : Upload T) (retry : Bool) : Outcome :=
  if upload.truncated then .failed else if retry then .retry else .failed

def statusRetry (upload : Upload T) : Outcome := if upload.truncated then .failed else .retry

def exchangeFailed (upload : Upload T) (retry : Bool) : UploadEnd → Outcome
  | .client _ => .failed
  | .upstream _ => afterFailure upload retry
  | .halted halt => if halt.rejection.isSome then .reply else .failed

/-- `Ended`: how the relay ended. -/
inductive Ended where
  | clientGone
  | downstream
  | filter
  | finished
  | upstream
deriving Repr, DecidableEq

/-- Where the task of a request is; every session it uses is in exactly one phase. -/
inductive Phase (T : Type) where
  /-- `proxy`, about to make an attempt. -/
  | idle
  /-- `send_until_head` -/
  | sending (sess : Session T)
  /-- `response::head`, with the final head read. -/
  | head (sess : Session T)
  /-- `Relaying::pump` -/
  | relaying (sess : Session T)
  | over
deriving Repr, DecidableEq

/-- The task of a request. `outputs` and `trailers` record what the client's body was once the filters
ran: the non-empty chunks they left, in order, and the trailers the client sent. -/
structure State (T : Type) where
  phase : Phase T
  attempts : Nat
  upload : Upload T
  ctx : BodyCtx
  released : List (Session T × Bool)
  outputs : List Bytes
  trailers : Option T
deriving Repr, DecidableEq

/-- What the response phase makes of a head. -/
inductive Verdict where
  /-- The head cannot be copied, or it switches protocols. -/
  | unusable (retry : Bool)
  /-- `response_status_retry` wants another attempt. -/
  | retriable
  /-- The response filters reject it or fail. -/
  | stopped
  | bodyless
  /-- A body follows; `first` is what `read_first` read of it, if anything arrived in time. -/
  | body (first : Option BodyRead) (filterOk clientTakes : Bool)
deriving Repr, DecidableEq

inductive Event (T : Type) where
  /-- `select_peer` finds nothing to dial. -/
  | noPeer
  /-- The connector fails. -/
  | refuse (retry : Bool)
  /-- A session; `sent` when the request head went out on it. -/
  | connect (h2 : Bool) (writeTimeout : Option Nat) (sent retry : Bool)
  /-- A flush; when it fails, `answered` is the head the upstream had sent before. -/
  | flush (n : Nat) (stop : Stop) (answered : Option Bool) (retry : Bool)
  /-- A frame of the client, and what the body filters do with it. -/
  | client (frame : Except Failure (DownstreamFrame T)) (filter : Filter)
  /-- The final response head. -/
  | answer (atEnd : Bool)
  /-- The head cannot be read, or not in time. -/
  | lose (retry : Bool)
  | respond (verdict : Verdict)
  /-- The relay reads the upstream's body. -/
  | read (yielded : BodyRead) (filterOk clientTakes : Bool)
  /-- The client goes away. -/
  | gone

def maxAttempts : Nat := 16

namespace State

variable (s : State T) (sess : Session T)

def release (keepalive : Bool) : State T := { s with released := s.released ++ [(sess, keepalive)] }

/-- The loop of `proxy` after an attempt. -/
def follow : Outcome → State T
  | .retry => { s with phase := if s.attempts < maxAttempts then .idle else .over }
  | .failed | .reply => { s with phase := .over }

/-- An attempt that is over without an answer gives its session up. -/
def fail (outcome : Outcome) : State T := (s.release sess false).follow outcome

/-- The records once a frame was read. -/
def record (h2 : Bool) (frame : Except Failure (DownstreamFrame T)) (filter : Filter) : State T :=
  { s with
    outputs := s.outputs ++ (output filter h2 frame).toList
    trailers := trailersAfter s.trailers frame }

/-- `attempt`, up to the request head, then `Upload::begin`. -/
def stepIdle : Event T → Option (State T)
  | .noPeer => some ({ s with attempts := s.attempts + 1 }.follow .failed)
  | .refuse retry => some ({ s with attempts := s.attempts + 1 }.follow (afterFailure s.upload retry))
  | .connect h2 writeTimeout sent retry =>
    let s := { s with attempts := s.attempts + 1, ctx := s.ctx.reseedRetryBody }
    let sess := Session.new h2
    if sent then
      match s.upload.begin s.ctx h2 writeTimeout with
      | .ok (upload, ctx) => some { s with upload, ctx, phase := .sending sess }
      | .error refused => some (s.fail sess (exchangeFailed s.upload retry refused))
    else some (s.fail sess (afterFailure s.upload retry))
  | _ => none

/-- `send_until_head` -/
def stepSending : Event T → Option (State T)
  | .flush n stop answered retry =>
    match s.upload.flush sess false n stop with
    | (.ok _, upload, sess) => some { s with upload, phase := .sending sess }
    | (.error failed, upload, sess) =>
      match answered with
      | some atEnd => some { s with upload, phase := .head (sess.answer atEnd) }
      | none => some ({ s with upload }.fail sess (exchangeFailed upload retry failed))
  | .client frame filter =>
    if s.upload.live && !s.upload.hasOutgoing then
      match s.upload.accept filter frame sess.h2 with
      | (.ok (), upload) => some { s.record sess.h2 frame filter with upload }
      | (.error refused, upload) =>
        some ({ s.record sess.h2 frame filter with upload }.fail sess (exchangeFailed upload false refused))
    else none
  | .answer atEnd => some { s with phase := .head (sess.answer atEnd) }
  | .lose retry => some (s.fail sess (afterFailure s.upload retry))
  | _ => none

/-- `settle` and the release that ends `Relaying::run`. -/
def finish (ended : Ended) : State T :=
  { s.release sess ((ended == .finished && sess.finished) && s.upload.isSettled) with phase := .over }

/-- `deliver_end`, `deliver_last` and, with filters that already ran, `end_with`. -/
def deliverEnd (filterOk clientTakes : Bool) : Ended :=
  if !filterOk then .filter else if clientTakes then .finished else .clientGone

def deliver (filterOk clientTakes : Bool) : Option Ended :=
  if !filterOk then some .filter else if clientTakes then none else some .clientGone

/-- The relay goes on, or ends. -/
def carryOn : Option Ended → State T
  | none => { s with phase := .relaying sess }
  | some ended => s.finish sess ended

/-- `response::head`, `commit` and `Relaying::resume` -/
def stepHead : Event T → Option (State T)
  | .respond (.unusable retry) => some (s.fail sess (afterFailure s.upload retry))
  | .respond .retriable => some (s.fail sess (statusRetry s.upload))
  | .respond .stopped => some (s.fail sess .failed)
  | .respond .bodyless =>
    some { s.release sess (sess.responseDone && s.upload.isSettled) with phase := .over }
  | .respond (.body none _ _) => some { s with phase := .relaying sess }
  | .respond (.body (some yielded) filterOk clientTakes) =>
    match sess.nextChunk yielded with
    | (.chunk _, sess) =>
      -- A body filter that fails on the first chunk is answered with an error response.
      if !filterOk then some (s.fail sess .failed)
      else if sess.responseDone then some (s.finish sess (deliverEnd filterOk clientTakes))
      else some (s.carryOn sess (deliver filterOk clientTakes))
    | (.ended, sess) => some (s.finish sess (deliverEnd filterOk clientTakes))
    | (.failed, sess) => some (s.fail sess .failed)
  | _ => none

/-- `Relaying::pump`: `push_upload`, `forward` and `take_step` -/
def stepRelaying : Event T → Option (State T)
  | .flush n stop _ _ =>
    if s.upload.hasOutgoing then
      match s.upload.flush sess false n stop with
      | (.ok _, upload, sess) => some { s with upload, phase := .relaying sess }
      | (.error _, upload, sess) => some { s with upload := upload.abandon, phase := .relaying sess }
    else none
  | .client frame filter =>
    if s.upload.live && !s.upload.hasOutgoing then
      let t := s.record sess.h2 frame filter
      match s.upload.accept filter frame sess.h2 with
      | (.ok (), upload) => some { t with upload }
      | (.error refused, upload) =>
        match refused with
        | .client failure =>
          if failure.kind = .badRequest then some ({ t with upload }.finish sess .downstream)
          else some { t with upload := upload.abandon }
        | _ => some { t with upload := upload.abandon }
    else none
  | .read yielded filterOk clientTakes =>
    match sess.nextChunk yielded with
    | (.chunk _, sess) =>
      if sess.responseDone then some (s.finish sess (deliverEnd filterOk clientTakes))
      else some (s.carryOn sess (deliver filterOk clientTakes))
    | (.ended, sess) => some (s.finish sess (deliverEnd filterOk clientTakes))
    | (.failed, sess) => some (s.finish sess .upstream)
  | .gone => some (s.finish sess .clientGone)
  | _ => none

/-- One turn of the task. -/
def step (event : Event T) : Option (State T) :=
  match s.phase with
  | .idle => s.stepIdle event
  | .sending sess => s.stepSending sess event
  | .head sess => s.stepHead sess event
  | .relaying sess => s.stepRelaying sess event
  | .over => none

/-- The task of a request whose request phase is over. -/
def start (done : Bool) (preReadTrailers : Option T) (ctx : BodyCtx) : State T where
  phase := .idle
  attempts := 0
  upload := new done preReadTrailers ctx
  ctx
  released := []
  outputs := []
  trailers := preReadTrailers

/-- The session in use. -/
def current : Option (Session T) :=
  match s.phase with
  | .idle | .over => none
  | .sending sess | .head sess | .relaying sess => some sess

/-- The sessions of all attempts. -/
def sessions : List (Session T) := s.released.map Prod.fst ++ s.current.toList

/-- Everything a session is to take: the body and one end marker, with the client's trailers. -/
def stream : List (Item T) := (s.upload.body s.outputs).map .data ++ [.finish s.trailers]

/-- The part of the stream that is known. -/
def known (s : State T) : List (Item T) := s.upload.known s.outputs

end State

end Praxis.Hyper
