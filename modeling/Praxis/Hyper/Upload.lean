/-
The request body on its way to the upstream: what is queued for the session of the current attempt,
what is kept to be sent again, and how frames of the client, flushes and new attempts change both.

A queue is read as the sequence of items it puts on the wire, data and one end marker. Every
operation has one lemma that says what it does to that sequence.
-/
import Praxis.Pipeline.Action
import Praxis.Retry.Body

namespace Praxis.Hyper

open List

open Praxis.Retry (Bytes BodyCtx)

/-! ## Failures -/

inductive FailureKind where
  | badRequest
  | connectError
  | connectNoRoute
  | connectRefused
  | connectTimeout
  | connectionClosed
  | downstreamClosed
  | downstreamTimeout
  | http2
  | internal
  | invalidCert
  | invalidResponse
  | readError
  | readTimeout
  | status (code : Nat)
  | tlsFailure
  | writeError
  | writeTimeout
deriving Repr, DecidableEq

structure Failure where
  detail : String
  kind : FailureKind
deriving Repr, DecidableEq

def Failure.writeTimeout (limit : Nat) : Failure :=
  { detail := s!"upstream write timeout ({limit} ms) expired", kind := .writeTimeout }

structure RequestBodyHalt where
  reason : String
  rejection : Option Pipeline.Rejection
  status : Option Nat
deriving Repr, DecidableEq

inductive UploadEnd where
  | client (failure : Failure)
  | halted (halt : RequestBodyHalt)
  | upstream (failure : Failure)
deriving Repr, DecidableEq

/-! ## Sessions -/

/-- One thing to hand the session. The trailers are a header map, which nothing here looks into. -/
inductive Outgoing (T : Type) where
  | chunk (body : Bytes)
  | finish
  | last (body : Bytes)
  | trailers (trailers : T)
deriving Repr, DecidableEq

/-- What goes over the wire: body bytes, or the end of the body with its trailers. -/
inductive Item (T : Type) where
  | data (body : Bytes)
  | finish (trailers : Option T)
deriving Repr, DecidableEq

/-- How far the response got. `awaiting` is any state before the final head was read; a body knows
whether its end was already seen (`is_end_stream`). -/
inductive Inbound where
  | awaiting
  | body (atEnd : Bool)
  | ended
  | failed
deriving Repr, DecidableEq

/-- `HyperSession`: the protocol spoken, what the session took of the request body, and the response. -/
structure Session (T : Type) where
  h2 : Bool
  taken : List (Outgoing T)
  inbound : Inbound
deriving Repr, DecidableEq

variable {T : Type}

/-- A session on which the request head was sent. -/
def Session.new (h2 : Bool) : Session T := { h2, taken := [], inbound := .awaiting }

/-- `push`, when the session takes the item. -/
def Session.push (sess : Session T) (item : Outgoing T) : Session T :=
  { sess with taken := sess.taken ++ [item] }

/-- The wire form of what is handed over. -/
def Outgoing.items : Outgoing T → List (Item T)
  | .chunk body => [.data body]
  | .finish => [.finish none]
  | .last body => [.data body, .finish none]
  | .trailers fields => [.finish (some fields)]

def items (queue : List (Outgoing T)) : List (Item T) := queue.flatMap Outgoing.items

@[simp] theorem items_nil : items ([] : List (Outgoing T)) = [] := rfl

@[simp] theorem items_append (a b : List (Outgoing T)) : items (a ++ b) = items a ++ items b := flatMap_append

@[simp] theorem items_singleton (item : Outgoing T) : items [item] = item.items := by simp [items]

theorem items_chunks (chunks : List Bytes) : items (chunks.map (Outgoing.chunk (T := T))) = chunks.map .data := by
  induction chunks with
  | nil => rfl
  | cons chunk chunks ih => simpa [items, Outgoing.items] using ih

/-! ## Uploads -/

/-- How a request body reaches the upstream. -/
inductive Mode where
  | empty
  | buffered
  | streaming
deriving Repr, DecidableEq

inductive Flush where
  | blocked
  | done
  | taken
deriving Repr, DecidableEq

inductive DownstreamFrame (T : Type) where
  | data (body : Bytes)
  | ended
  | trailers (trailers : T)
deriving Repr, DecidableEq

/-- `Upload`. Of the client's body only whether it is still read is kept: what it yields arrives from
outside, frame by frame. Times are in milliseconds. -/
structure Upload (T : Type) where
  buffered : Option (List Bytes)
  ended : Bool
  live : Bool
  mode : Mode
  outgoing : List (Outgoing T)
  replay : List Bytes
  replayBytes : Nat
  stalledSince : Option Nat
  trailers : Option T
  truncated : Bool
  writeTimeout : Option Nat
deriving Repr, DecidableEq

namespace Upload

/-- `Upload::new`; `done` and `preReadTrailers` are what the request phase left of the client's body. -/
def new (done : Bool) (preReadTrailers : Option T) (ctx : BodyCtx) : Upload T :=
  let mode :=
    if ctx.preReadBody.isSome || ctx.retainedAdaptedRequestBody.isSome then .buffered
    else if done then .empty
    else .streaming
  { buffered := none
    ended := decide (mode ≠ .streaming)
    live := decide (mode = .streaming)
    mode
    outgoing := []
    replay := []
    replayBytes := 0
    stalledSince := none
    trailers := preReadTrailers
    truncated := false
    writeTimeout := none }

variable (u : Upload T)

def abandon : Upload T := { u with live := false, outgoing := [] }

def hasOutgoing : Bool := !u.outgoing.isEmpty

def isSettled : Bool := u.ended && !u.live && u.outgoing.isEmpty

def keep (chunk : Bytes) : Upload T :=
  if u.truncated then u
  else
    let total := u.replayBytes + chunk.length
    if Retry.defaultRetryBodyLimitBytes < total then { u with truncated := true, replay := [], replayBytes := 0 }
    else { u with replay := u.replay ++ [chunk], replayBytes := total }

/-- What `queue_end` queues. -/
def endItems (last : Option Bytes) (trailers : Option T) : List (Outgoing T) :=
  match last, trailers with
  | some chunk, some trailers => [.chunk chunk, .trailers trailers]
  | some chunk, none => [.last chunk]
  | none, some trailers => [.trailers trailers]
  | none, none => [.finish]

def queueEnd (last : Option Bytes) : Upload T := { u with outgoing := u.outgoing ++ endItems last u.trailers }

/-- The loop of `queue_whole`; `more` says whether trailers follow the last chunk. -/
def wholeItems (more : Bool) : List Bytes → List (Outgoing T)
  | [] => []
  | [chunk] => [if more then .chunk chunk else .last chunk]
  | chunk :: rest => .chunk chunk :: wholeItems more rest

def queueWhole (chunks : List Bytes) : Upload T :=
  let queued := u.outgoing ++ wholeItems u.trailers.isSome chunks
  { u with
    outgoing := if queued.isEmpty || u.trailers.isSome then queued ++ endItems none u.trailers else queued }

def validateTrailers (h2 : Bool) : Except UploadEnd Unit :=
  if u.trailers.isSome && !h2 then
    .error (.client
      { detail := "the Hyper backend cannot forward request trailers to HTTP/1 upstreams", kind := .badRequest })
  else .ok ()

/-- The request body filters on one chunk, or at the end of the body. -/
abbrev Filter := Option Bytes → Bool → Except RequestBodyHalt (Option Bytes)

def acceptEnd (filter : Filter) : Except UploadEnd Unit × Upload T :=
  let u := { u with live := false, ended := true }
  match filter none true with
  | .error halt => (.error (.halted halt), u)
  | .ok last =>
    match last.filter (!·.isEmpty) with
    | some chunk => (.ok (), (u.keep chunk).queueEnd (some chunk))
    | none => (.ok (), u.queueEnd none)

def accept (filter : Filter) (frame : Except Failure (DownstreamFrame T)) (h2 : Bool) : Except UploadEnd Unit × Upload T :=
  match frame with
  | .error failure => (.error (.client failure), { u with live := false })
  | .ok (.data chunk) =>
    match filter (some chunk) false with
    | .error halt => (.error (.halted halt), u)
    | .ok body =>
      match body.filter (!·.isEmpty) with
      | some chunk => (.ok (), { u.keep chunk with outgoing := u.outgoing ++ [.chunk chunk] })
      | none => (.ok (), u)
  | .ok (.trailers trailers) =>
    let u := { u with trailers := some trailers }
    match u.validateTrailers h2 with
    | .error refused => (.error refused, u)
    | .ok () => u.acceptEnd filter
  | .ok .ended => u.acceptEnd filter

def takeBuffered (ctx : BodyCtx) : List Bytes × Upload T × BodyCtx :=
  let (taken, ctx) :=
    if ctx.retainedAdaptedRequestBody.isSome then
      (ctx.adaptedRequestBody, { ctx with adaptedRequestBody := none })
    else (ctx.preReadBody, { ctx with preReadBody := none })
  match taken with
  | some chunks => (chunks, { u with buffered := some chunks }, ctx)
  | none => (u.buffered.getD [], u, ctx)

def begin (ctx : BodyCtx) (h2 : Bool) (writeTimeout : Option Nat) : Except UploadEnd (Upload T × BodyCtx) :=
  match u.validateTrailers h2 with
  | .error refused => .error refused
  | .ok () =>
    let u := { u with outgoing := [], stalledSince := none, writeTimeout }
    match u.mode with
    | .empty => .ok (u.queueEnd none, ctx)
    | .buffered =>
      let (chunks, u, ctx) := u.takeBuffered ctx
      .ok (u.queueWhole chunks, ctx)
    | .streaming =>
      let u := { u with outgoing := u.replay.map .chunk }
      .ok (if u.ended then u.queueEnd none else u, ctx)

/-- What keeps a flush from handing over more: the session refuses the next item, or does not take
it within the slice. -/
inductive Stop where
  | refused (failure : Failure)
  | blocked (now : Nat)
deriving Repr, DecidableEq

/-- `Upload::stalled`, at a time. -/
def stalled (now : Nat) : Except UploadEnd Flush × Upload T :=
  let since := u.stalledSince.getD now
  let u := { u with stalledSince := some since }
  match u.writeTimeout with
  | some limit =>
    if limit ≤ now - since then (.error (.upstream (Failure.writeTimeout limit)), u) else (.ok .blocked, u)
  | none => (.ok .blocked, u)

/-- `Upload::flush`, when the session takes `n` more items, or all there are, before it stops; `taken`
says whether it took one already. -/
def flush (u : Upload T) (sess : Session T) (taken : Bool) (n : Nat) (stop : Stop) :
    Except UploadEnd Flush × Upload T × Session T :=
  match u.outgoing, n with
  | [], _ => (.ok .done, u, sess)
  | next :: rest, n + 1 =>
    flush { u with outgoing := rest, stalledSince := none } (sess.push next) true n stop
  | _ :: _, 0 =>
    match stop with
    | .refused failure => (.error (.upstream failure), u, sess)
    | .blocked now =>
      match u.stalled now with
      | (.error timedOut, u) => (.error timedOut, u, sess)
      | (.ok stalled, u) => (.ok (if taken then .taken else stalled), u, sess)

/-! ## What is queued -/

theorem items_endItems (last : Option Bytes) (trailers : Option T) :
    items (endItems last trailers) = last.toList.map .data ++ [.finish trailers] := by
  cases last <;> cases trailers <;> rfl

theorem items_wholeItems (more : Bool) : ∀ chunks : List Bytes, chunks ≠ [] →
    items (wholeItems (T := T) more chunks) = chunks.map .data ++ if more then [] else [.finish none]
  | [], h => absurd rfl h
  | [chunk], _ => by cases more <;> rfl
  | chunk :: next :: rest, _ => by
    have hrest := items_wholeItems more (next :: rest) (cons_ne_nil _ _)
    simp only [items, wholeItems, flatMap_cons, Outgoing.items, map_cons, cons_append,
      nil_append] at hrest ⊢
    rw [hrest]

/-- A whole body is queued with its end, whatever number of chunks it comes in. -/
theorem items_queueWhole (chunks : List Bytes) (hempty : u.outgoing = []) :
    items (u.queueWhole chunks).outgoing = chunks.map .data ++ [.finish u.trailers] := by
  rcases eq_or_ne chunks [] with rfl | hchunks
  · simp [queueWhole, wholeItems, hempty, items_endItems]
  have hitems := items_wholeItems (T := T) u.trailers.isSome chunks hchunks
  cases htrailers : u.trailers with
  | some trailers =>
    rw [htrailers, Option.isSome_some] at hitems
    simp [queueWhole, hempty, htrailers, hitems, items_endItems]
  | none =>
    rw [htrailers, Option.isSome_none] at hitems
    have hqueued : wholeItems (T := T) false chunks ≠ [] := by
      intro hnil
      rw [hnil] at hitems
      cases chunks with
      | nil => exact hchunks rfl
      | cons chunk rest => cases hitems
    simp [queueWhole, hempty, htrailers, hqueued, hitems]

/-- Keeping a chunk touches the replay copy only, and the copy stays complete until it is given up. -/
theorem keep_spec (chunk : Bytes) : ∃ replay replayBytes truncated,
    u.keep chunk = { u with replay, replayBytes, truncated } ∧
      (truncated = false → u.truncated = false ∧ replay = u.replay ++ [chunk]) := by
  unfold keep
  dsimp only
  split
  · rename_i htruncated
    exact ⟨_, _, _, rfl, fun h => absurd h (by simp [htruncated])⟩
  · rename_i hkept
    split
    · exact ⟨_, _, _, rfl, fun h => by cases h⟩
    · exact ⟨_, _, _, rfl, fun _ => ⟨by simpa using hkept, rfl⟩⟩

/-! ## The body as the upload knows it -/

/-- The body to send: the one in memory, or what the filters left of the frames read so far. -/
def body (outputs : List Bytes) : List Bytes :=
  match u.mode with
  | .empty => []
  | .buffered => u.buffered.getD []
  | .streaming => outputs

/-- The items of the body that are known, with the end marker once the client's body ended. -/
def known (outputs : List Bytes) : List (Item T) :=
  (u.body outputs).map .data ++ if u.ended then [.finish u.trailers] else []

theorem takeBuffered_spec (ctx : BodyCtx) : ∃ buffered,
    (u.takeBuffered ctx).2.1 = { u with buffered } ∧ (u.takeBuffered ctx).1 = buffered.getD [] := by
  unfold takeBuffered
  dsimp only
  split
  · exact ⟨_, rfl, rfl⟩
  · exact ⟨_, rfl, rfl⟩

theorem begin_spec {u u' : Upload T} {ctx ctx' : BodyCtx} {h2 : Bool} {writeTimeout : Option Nat}
    (hmemory : u.mode ≠ .streaming → u.ended = true) (h : u.begin ctx h2 writeTimeout = .ok (u', ctx')) :
    (∃ buffered outgoing, u' = { u with buffered, outgoing, stalledSince := none, writeTimeout }) ∧
      items u'.outgoing = u'.known u.replay := by
  unfold begin at h
  split at h
  · cases h
  dsimp only at h
  split at h
  · rename_i hmode
    cases h
    have hended : u.ended = true := hmemory (by simp [hmode])
    exact ⟨⟨_, _, rfl⟩, by simp [known, body, hmode, hended, queueEnd, items_endItems]⟩
  · rename_i hmode
    cases h
    have hended : u.ended = true := hmemory (by simp [hmode])
    obtain ⟨buffered, hupload, hchunks⟩ :=
      takeBuffered_spec { u with outgoing := [], stalledSince := none, writeTimeout } ctx
    rw [hupload, hchunks, items_queueWhole _ _ rfl]
    exact ⟨⟨_, _, rfl⟩, by simp [known, body, queueWhole, hmode, hended]⟩
  · rename_i hmode
    cases h
    split
    · rename_i hended
      exact ⟨⟨_, _, rfl⟩, by simp [known, body, hmode, hended, queueEnd, items_chunks, items_endItems]⟩
    · rename_i hended
      exact ⟨⟨_, _, rfl⟩, by simp [known, body, hmode, hended, items_chunks]⟩

/-! ## Flushing -/

theorem flush_spec (stop : Stop) : ∀ (n : Nat) (u : Upload T) (sess : Session T) (taken : Bool),
    ∃ k stalledSince, (u.flush sess taken n stop).2 =
      ({ u with outgoing := u.outgoing.drop k, stalledSince },
        { sess with taken := sess.taken ++ u.outgoing.take k }) := by
  intro n
  induction n with
  | zero =>
    intro u sess taken
    refine ⟨0, ?_⟩
    unfold flush
    split
    · rename_i hnil
      exact ⟨u.stalledSince, by simp⟩
    · rename_i h; cases h
    · split
      · exact ⟨u.stalledSince, by simp⟩
      · unfold stalled
        simp only
        split <;> rename_i hs <;> split at hs <;> try split at hs
        all_goals
          obtain ⟨-, rfl⟩ := Prod.mk.inj hs
          exact ⟨_, by simp only [drop_zero, take_zero, append_nil]; rfl⟩
  | succ n ih =>
    intro u sess taken
    unfold flush
    split
    · exact ⟨0, u.stalledSince, by simp⟩
    · rename_i next rest m hqueue hm
      cases hm
      obtain ⟨k, since, hflush⟩ := ih { u with outgoing := rest, stalledSince := none } (sess.push next) true
      refine ⟨k + 1, since, hflush.trans ?_⟩
      simp [hqueue, Session.push]
    · rename_i h; cases h

/-- Whether the session's stop makes the flush fail: a refusal, or the wait for the item at the front
reaching the write timeout. The wait starts anew with every item taken. -/
def fails (n : Nat) : Stop → Bool
  | .refused _ => true
  | .blocked now =>
    u.writeTimeout.any fun limit => decide (limit ≤ now - if n = 0 then u.stalledSince.getD now else now)

theorem flush_error_iff (stop : Stop) : ∀ (n : Nat) (u : Upload T) (sess : Session T) (taken : Bool),
    (∃ e, (u.flush sess taken n stop).1 = .error e) ↔
      n < u.outgoing.length ∧ u.fails n stop = true := by
  intro n
  induction n with
  | zero =>
    intro u sess taken
    unfold flush
    split
    · rename_i hnil
      simp [hnil]
    · rename_i h; cases h
    · rename_i hqueue _
      rw [hqueue]
      cases stop with
      | refused failure => simp [fails]
      | blocked now =>
        cases hlimit : u.writeTimeout with
        | none => simp [stalled, hlimit, fails]
        | some limit =>
          by_cases hwaited : limit ≤ now - u.stalledSince.getD now <;> simp [stalled, hlimit, fails, hwaited]
  | succ n ih =>
    intro u sess taken
    unfold flush
    split
    · rename_i hnil
      simp [hnil]
    · rename_i next rest m hqueue hm
      cases hm
      rw [ih, hqueue, length_cons, Nat.succ_lt_succ_iff]
      cases stop <;> simp [fails]
    · rename_i h; cases h

/-! ## Frames of the client -/

/-- The bytes the filters leave, if any. -/
def left : Except RequestBodyHalt (Option Bytes) → Option Bytes
  | .error _ => none
  | .ok body => body.filter (!·.isEmpty)

/-- What the filters leave of a frame. They do not run on trailers that the upstream cannot carry. -/
def output (filter : Filter) (h2 : Bool) : Except Failure (DownstreamFrame T) → Option Bytes
  | .error _ => none
  | .ok (.data chunk) => left (filter (some chunk) false)
  | .ok (.trailers _) => if h2 then left (filter none true) else none
  | .ok .ended => left (filter none true)

/-- The trailers once the frame was read. -/
def trailersAfter (before : Option T) : Except Failure (DownstreamFrame T) → Option T
  | .ok (.trailers trailers) => some trailers
  | _ => before

/-- What reading one frame does to an upload whose client had not ended the body. -/
structure Accepted (u u' : Upload T) (result : Except UploadEnd Unit) (out : Option Bytes) (fields : Option T) :
    Prop where
  mode : u'.mode = u.mode
  buffered : u'.buffered = u.buffered
  trailers : u'.trailers = fields
  ended : u'.ended = true → u'.live = false
  live : u'.live = true → u.live = true
  replay : u'.truncated = false → u.truncated = false ∧ u'.replay = u.replay ++ out.toList
  queued : result = .ok () → items u'.outgoing =
    items u.outgoing ++ out.toList.map .data ++ if u'.ended then [.finish fields] else []
  refused : ∀ e, result = .error e → u'.outgoing = u.outgoing ∧ out = none

theorem acceptEnd_spec (filter : Filter) :
    Accepted u (u.acceptEnd filter).2 (u.acceptEnd filter).1 (left (filter none true)) u.trailers := by
  unfold acceptEnd
  cases hfilter : filter none true with
  | error halt =>
    exact ⟨rfl, rfl, rfl, fun _ => rfl, nofun, fun h => ⟨h, by simp [left]⟩, nofun,
      fun _ _ => ⟨rfl, rfl⟩⟩
  | ok last =>
    dsimp only [left]
    cases hlast : last.filter (!·.isEmpty) with
    | none =>
      exact ⟨rfl, rfl, rfl, fun _ => rfl, nofun, fun h => ⟨h, by simp [queueEnd]⟩,
        fun _ => by simp [queueEnd, items_endItems], nofun⟩
    | some chunk =>
      obtain ⟨replay, replayBytes, truncated, hkeep, hreplay⟩ :=
        keep_spec { u with live := false, ended := true } chunk
      simp only [hkeep]
      exact ⟨rfl, rfl, rfl, fun _ => rfl, nofun, hreplay, fun _ => by simp [queueEnd, items_endItems], nofun⟩

theorem accept_spec {u : Upload T} (hended : u.ended = false) (filter : Filter)
    (frame : Except Failure (DownstreamFrame T)) (h2 : Bool) :
    Accepted u (u.accept filter frame h2).2 (u.accept filter frame h2).1 (output filter h2 frame)
      (trailersAfter u.trailers frame) := by
  have hopen : ∀ {p : Prop}, u.ended = true → p := fun h => nomatch hended.symm.trans h
  match frame with
  | .error failure =>
    exact ⟨rfl, rfl, rfl, fun _ => rfl, nofun, fun h => ⟨h, (append_nil _).symm⟩, nofun,
      fun _ _ => ⟨rfl, rfl⟩⟩
  | .ok (.data chunk) =>
    cases hfilter : filter (some chunk) false with
    | error halt =>
      simp only [accept, output, left, trailersAfter, hfilter]
      exact ⟨rfl, rfl, rfl, fun h => hopen h, id, fun h => ⟨h, (append_nil _).symm⟩, nofun,
        fun _ _ => ⟨rfl, rfl⟩⟩
    | ok body =>
      simp only [accept, output, left, trailersAfter, hfilter]
      cases hbody : body.filter (!·.isEmpty) with
      | none =>
        exact ⟨rfl, rfl, rfl, fun h => hopen h, id, fun h => ⟨h, (append_nil _).symm⟩,
          fun _ => by simp [hended], nofun⟩
      | some chunk =>
        obtain ⟨replay, replayBytes, truncated, hkeep, hreplay⟩ := keep_spec u chunk
        simp only [hkeep]
        exact ⟨rfl, rfl, rfl, fun h => hopen h, id, hreplay, fun _ => by simp [hended, Outgoing.items], nofun⟩
  | .ok (.trailers trailers) =>
    cases h2 with
    | true =>
      obtain ⟨hmode, hbuffered, htrailers, hended', hlive, hreplay, hqueued, hrefused⟩ :=
        acceptEnd_spec { u with trailers := some trailers } filter
      exact ⟨hmode, hbuffered, htrailers, hended', hlive, hreplay, hqueued, hrefused⟩
    | false =>
      exact ⟨rfl, rfl, rfl, fun h => hopen h, id, fun h => ⟨h, (append_nil _).symm⟩, nofun,
        fun _ _ => ⟨rfl, rfl⟩⟩
  | .ok .ended => exact acceptEnd_spec u filter

end Upload

end Praxis.Hyper
