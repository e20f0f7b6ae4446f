/-
The one-pass rewriter. It walks the input once, copies what no operation touches, splices
payloads in and captures extracted values on the way. The walk carries what is left of the input,
the output (none when nothing is to be written) and a session with the captures so far; the
source keeps the current path in the session, here it is an argument.
-/
import Praxis.JsonOps.Builder
import Mathlib.Data.List.AList

namespace Praxis.JsonOps

open Praxis.Lib Praxis.Lib.Json

/-! ## Store and session -/

/-- What a `JsonOpStore` holds. -/
structure JsonOpStore where
  metadata : AList (fun _ : String => String)
  structured : AList (fun _ : String × String => Value)
  requestHeaders : List (String × String)

def JsonOpStore.empty : JsonOpStore := ⟨∅, ∅, []⟩

structure RewriteSession where
  /-- Captured in this walk or preloaded from the store. -/
  scratchMetadata : AList (fun _ : String => String)
  scratchStructured : AList (fun _ : String × String => Value)
  captureStructured : AList (fun _ : String × String => Bytes)
  captureHeaders : AList (fun _ : String => String)
  /-- Serialised payloads by operation, static ones from the start. -/
  resolved : List (Option Bytes)

/-- The payload that is known before the walk. -/
def staticPayload (op : CompiledOp) : Option Bytes :=
  match op.source with
  | some (.static bytes) => some bytes
  | _ => none

variable (sj : SerdeJson) (set : CompiledOpSet)

def RewriteSession.new : RewriteSession :=
  { scratchMetadata := ∅, scratchStructured := ∅, captureStructured := ∅, captureHeaders := ∅
    resolved := set.ops.map staticPayload }

/-- One operation of `preload_context_sources`. -/
def preloadSource (store : JsonOpStore) (sess : RewriteSession) (op : CompiledOp) : RewriteSession :=
  if op.kind = .extract then sess
  else
    match op.source with
    | some (.metadata key) =>
      match store.metadata.lookup key with
      | some text => { sess with scratchMetadata := sess.scratchMetadata.insert key text }
      | none => sess
    | some (.structured ns key) =>
      match store.structured.lookup (ns, key) with
      | some value => { sess with scratchStructured := sess.scratchStructured.insert (ns, key) value }
      | none => sess
    | _ => sess

def preloadContextSources (store : JsonOpStore) (sess : RewriteSession) : RewriteSession :=
  set.ops.foldl (preloadSource store) sess

def MAX_DYNAMIC_VALUE_LEN : Nat := 256

def isSafeHeaderPromotion (text : String) : Bool :=
  decide ((utf8 text).length ≤ MAX_DYNAMIC_VALUE_LEN) &&
    (utf8 text).all fun b => b == 9 || (decide (32 ≤ b) && b != 127)

def RewriteSession.flushToStore (sess : RewriteSession) (store : JsonOpStore) : JsonOpStore :=
  { metadata := sess.scratchMetadata.entries.foldl (fun m e => m.insert e.1 e.2) store.metadata
    structured := sess.captureStructured.entries.foldl
      (fun m e =>
        match sj.decodeValue e.2 with
        | some value => m.insert e.1 value
        | none => m) store.structured
    requestHeaders := sess.captureHeaders.entries.foldl
      (fun headers e => if isSafeHeaderPromotion e.2 then headers ++ [(e.1, e.2)] else headers) store.requestHeaders }

/-! ## Captures and payloads -/

def metadataText (json : Bytes) : Option String :=
  if json.head? = some QUOTE then sj.decodeString json else fromUtf8 json

def writeCaptureDest (json : Bytes) (dest : ExtractDest) (sess : RewriteSession) : RewriteSession :=
  match dest with
  | .metadata key =>
    match metadataText sj json with
    | some text => { sess with scratchMetadata := sess.scratchMetadata.insert key text }
    | none => sess
  | .structured ns key => { sess with captureStructured := sess.captureStructured.insert (ns, key) json }
  | .header name =>
    match metadataText sj json with
    | some text => { sess with captureHeaders := sess.captureHeaders.insert name text }
    | none => sess

/-- `store_capture`, on the bytes of the value at `path`. -/
def storeCapture (path : List PathToken) (json : Bytes) (sess : RewriteSession) : RewriteSession :=
  if set.index.extractBranchAt path then
    match (set.index.extractAt path).bind fun idx => set.ops[idx]? with
    | some op =>
      match op.dest with
      | some dest => writeCaptureDest sj json dest sess
      | none => sess
    | none => sess
  else sess

/-- The payload of a source, as far as the session knows it. -/
def sourcePayload (sess : RewriteSession) : ValueSource → Option Bytes
  | .static bytes => some bytes
  | .metadata key => (sess.scratchMetadata.lookup key).map sj.encodeString
  | .structured ns key => (sess.scratchStructured.lookup (ns, key)).map sj.encodeValue

/-- `resolve_payload`: what is found is kept for the operation. -/
def resolvePayload (idx : Nat) (op : CompiledOp) (sess : RewriteSession) : Option Bytes × RewriteSession :=
  match sess.resolved[idx]?.join with
  | some cached => (some cached, sess)
  | none =>
    match op.source.bind (sourcePayload sj sess) with
    | some payload => (some payload, { sess with resolved := sess.resolved.set idx (some payload) })
    | none => (none, sess)

def rootReplace (sess : RewriteSession) : Option Bytes × RewriteSession :=
  match set.ops.findIdx? fun op => decide (op.tokens = [] ∧ op.kind = .replace) with
  | some idx =>
    match set.ops[idx]? with
    | some op => resolvePayload sj idx op sess
    | none => (none, sess)
  | none => (none, sess)

/-! ## Output -/

/-- `emit_separator`: after it something has been emitted. -/
def emitSeparator (out : Bytes) (emittedAny : Bool) : Bytes := if emittedAny then out ++ [COMMA] else out

/-- The output of a container under way, and whether it has an item. -/
structure Emit where
  out : Option Bytes
  any : Bool

/-- One more item, when there is an output. -/
def Emit.item (emit : Emit) (bytes : Bytes) : Emit :=
  match emit.out with
  | some out => ⟨some (emitSeparator out emit.any ++ bytes), true⟩
  | none => emit

def tryEmitPayload (idx : Nat) (op : CompiledOp) (emit : Emit) (sess : RewriteSession) : Emit × RewriteSession :=
  match resolvePayload sj idx op sess with
  | (some payload, sess) => (emit.item payload, sess)
  | (none, sess) => (emit, sess)

def tryEmitAdd (idx : Nat) (emit : Emit) (sess : RewriteSession) : Emit × RewriteSession :=
  match set.ops[idx]? with
  | some op => if op.kind = .add then tryEmitPayload sj idx op emit sess else (emit, sess)
  | none => (emit, sess)

def parentIs (op : CompiledOp) (path : List PathToken) : Bool :=
  decide (op.tokens.length = path.length + 1) && pathEqTokens path (op.tokens.take path.length)

/-- One operation of `inject_object_adds`. -/
def injectObjectAdd (path : List PathToken) (sat : List String) (idx : Nat) (op : CompiledOp) (emit : Emit)
    (sess : RewriteSession) : Emit × RewriteSession :=
  if op.kind = .add ∧ parentIs op path = true then
    match op.tokens.getLast? with
    | none => (emit, sess)
    | some last =>
      if last = "-" ∨ last ∈ sat then (emit, sess)
      else
        match resolvePayload sj idx op sess with
        | (none, sess) => (emit, sess)
        | (some payload, sess) =>
          match op.encodedLastToken with
          | none => (emit, sess)
          | some encoded => (emit.item (encoded ++ [COLON] ++ payload), sess)
  else (emit, sess)

def injectObjectAddsFrom (sj : SerdeJson) (path : List PathToken) (sat : List String) :
    Nat → List CompiledOp → Emit → RewriteSession → Emit × RewriteSession
  | _, [], emit, sess => (emit, sess)
  | idx, op :: rest, emit, sess =>
    let (emit, sess) := injectObjectAdd sj path sat idx op emit sess
    injectObjectAddsFrom sj path sat (idx + 1) rest emit sess

def injectObjectAdds (path : List PathToken) (sat : List String) (emit : Emit) (sess : RewriteSession) :
    Emit × RewriteSession :=
  if emit.out.isSome then injectObjectAddsFrom sj path sat 0 set.ops emit sess else (emit, sess)

/-! ## The walk -/

/-- What the walk carries. -/
structure Cursor where
  input : Bytes
  out : Option Bytes
  session : RewriteSession

/-- The bytes between two positions. -/
def spanTo (start rest : Bytes) : Bytes := start.take (start.length - rest.length)

/-- `parse_string`: the token, the text and the rest. -/
def parseString (input : Bytes) : Except JsonError (Bytes × String × Bytes) := do
  let (rest, escaped) ← skipStringWithMeta input
  let raw := spanTo input rest
  let inner := (raw.drop 1).dropLast
  match (if escaped then sj.decodeString raw else fromUtf8 inner) with
  | some decoded => .ok (raw, decoded, rest)
  | none => .error .invalidJson

def copySpan (fuel : Nat) (depth : Nat) (cur : Cursor) : Except JsonError Cursor := do
  let start := skipWs cur.input
  let rest ← skipValue fuel start depth
  .ok { cur with input := rest, out := cur.out.map (· ++ spanTo start rest) }

/-- The recursive walk over a value, as its helpers see it. -/
abbrev Walk := Nat → List PathToken → Cursor → Except JsonError Cursor

def consumeValueForMutate (walk : Walk) (fuel depth : Nat) (path : List PathToken) (input : Bytes) (sess : RewriteSession) :
    Except JsonError (Bytes × RewriteSession) :=
  if set.index.hasDescendantExtracts path then do
    let cur ← walk depth path ⟨input, none, sess⟩
    .ok (cur.input, cur.session)
  else do
    let rest ← skipValue fuel input depth
    .ok (rest, storeCapture sj set path (spanTo input rest) sess)

/-- `apply_object_mutate`, on the input after the colon. -/
def applyObjectMutate (walk : Walk) (fuel depth : Nat) (path : List PathToken) (keySpan : Bytes) (idx : Nat) (op : CompiledOp)
    (emit : Emit) (input : Bytes) (sess : RewriteSession) : Except JsonError (Emit × Bytes × RewriteSession) :=
  match op.kind with
  | .remove => do
    let (rest, sess) ← consumeValueForMutate sj set walk fuel depth path input sess
    .ok (emit, rest, sess)
  | .extract => .ok (emit, input, sess)
  | _ => do
    let start := skipWs input
    let (rest, sess) ← consumeValueForMutate sj set walk fuel depth path start sess
    if emit.out.isSome then
      match resolvePayload sj idx op sess with
      | (some payload, sess) => .ok (emit.item (keySpan ++ [COLON] ++ payload), rest, sess)
      | (none, sess) => .ok (emit.item (keySpan ++ [COLON] ++ spanTo start rest), rest, sess)
    else .ok (emit, rest, sess)

/-- `rewrite_array_member`, for an operation found at the position. -/
def rewriteArrayMember (walk : Walk) (fuel depth : Nat) (path : List PathToken) (idx : Nat) (op : CompiledOp) (emit : Emit)
    (input : Bytes) (sess : RewriteSession) : Except JsonError (Emit × Bytes × RewriteSession) :=
  match op.kind with
  | .remove => do
    let (rest, sess) ← consumeValueForMutate sj set walk fuel depth path input sess
    .ok (emit, rest, sess)
  | .replace => do
    let start := skipWs input
    let (rest, sess) ← consumeValueForMutate sj set walk fuel depth path start sess
    if emit.out.isSome then
      match resolvePayload sj idx op sess with
      | (some payload, sess) => .ok (emit.item payload, rest, sess)
      | (none, sess) => .ok (emit.item (spanTo start rest), rest, sess)
    else .ok (emit, rest, sess)
  | _ => .ok (emit, input, sess)

/-- The state of the member loop. -/
structure MemberLoop where
  input : Bytes
  emit : Emit
  session : RewriteSession
  seen : Bool
  satisfied : List String

/-- The state of the element loop. -/
structure ElemLoop where
  input : Bytes
  emit : Emit
  session : RewriteSession
  origIdx : Nat

/-- An operation index with its operation. -/
def CompiledOpSet.opAt (idx : Option Nat) : Option (Nat × CompiledOp) :=
  idx.bind fun i => set.ops[i]?.map fun op => (i, op)

/-- Whether an add has found its payload, which makes its member satisfied. -/
def noteSatisfied (idx : Nat) (op : CompiledOp) (sat : List String) (sess : RewriteSession) : List String × RewriteSession :=
  if op.kind = .add then
    match resolvePayload sj idx op sess with
    | (some _, sess) => (sat ++ [op.tokens.getLast?.getD ""], sess)
    | (none, sess) => (sat, sess)
  else (sat, sess)

/-- `rewrite_object`, with its loop. -/
def rewriteObject (members : Nat → List PathToken → MemberLoop → Except JsonError MemberLoop) (depth : Nat)
    (path : List PathToken) (cur : Cursor) : Except JsonError Cursor := do
  let depth ← bumpDepth depth
  let input ← expectByte cur.input LBRACE
  let loop ← members depth path ⟨input, ⟨cur.out.map (· ++ [LBRACE]), false⟩, cur.session, false, []⟩
  let (emit, sess) := injectObjectAdds sj set path loop.satisfied loop.emit loop.session
  .ok ⟨loop.input, emit.out.map (· ++ [RBRACE]), sess⟩

/-- The end of `rewrite_array`: what is added at the length and at `-`. -/
def finishArray (path : List PathToken) (len : Nat) (emit : Emit) (sess : RewriteSession) : Emit × RewriteSession :=
  let (emit, sess) :=
    match set.index.mutateAtIndex path len with
    | some idx => tryEmitAdd sj set idx emit sess
    | none => (emit, sess)
  match set.index.addAppend path with
  | some idx => tryEmitAdd sj set idx emit sess
  | none => (emit, sess)

/-- `rewrite_array`, with its loop. -/
def rewriteArray (elems : Nat → List PathToken → ElemLoop → Except JsonError ElemLoop) (depth : Nat) (path : List PathToken)
    (cur : Cursor) : Except JsonError Cursor := do
  let depth ← bumpDepth depth
  let input ← expectByte cur.input LBRACKET
  let loop ← elems depth path ⟨input, ⟨cur.out.map (· ++ [LBRACKET]), false⟩, cur.session, 0⟩
  let (emit, sess) := finishArray sj set path loop.origIdx loop.emit loop.session
  .ok ⟨loop.input, emit.out.map (· ++ [RBRACKET]), sess⟩

/-- The operation at an array position, if it takes the element away or replaces it. -/
def replaceOrRemove (op : Option (Nat × CompiledOp)) : Option (Nat × CompiledOp) :=
  op.filter fun (_, op) => decide (op.kind = .remove ∨ op.kind = .replace)

section

variable (sj : SerdeJson) (set : CompiledOpSet)

mutual

def rewriteValue : Nat → Nat → List PathToken → Cursor → Except JsonError Cursor
  | 0, _, _, _ => .error .invalidJson
  | fuel + 1, depth, path, cur => do
    let start := skipWs cur.input
    let cur := { cur with input := start }
    let next ←
      if set.index.hasDescendantOps path then do
        let b ← nextByte start
        if b = LBRACE then rewriteObject sj set (rewriteMembers fuel) depth path cur
        else if b = LBRACKET then rewriteArray sj set (rewriteElems fuel) depth path cur
        else copySpan (fuel + 1) depth cur
      else copySpan (fuel + 1) depth cur
    .ok { next with session := storeCapture sj set path (spanTo start next.input) next.session }

/-- The loop of `rewrite_object`. -/
def rewriteMembers : Nat → Nat → List PathToken → MemberLoop → Except JsonError MemberLoop
  | 0, _, _, _ => .error .invalidJson
  | fuel + 1, depth, path, loop => do
    let (closed, input) ← nextItem RBRACE loop.seen loop.input
    if closed then .ok { loop with input := input }
    else do
      let (keySpan, key, input) ← parseString sj input
      let input ← expectByte (skipWs input) COLON
      match set.opAt (set.index.mutateChildKey path key) with
      | some (idx, op) => do
        let (emit, input, sess) ← applyObjectMutate sj set (rewriteValue fuel) fuel depth (path ++ [.key key])
          keySpan idx op loop.emit input loop.session
        let (sat, sess) := noteSatisfied sj idx op loop.satisfied sess
        rewriteMembers fuel depth path ⟨input, emit, sess, true, sat⟩
      | none => do
        let emit := loop.emit.item (keySpan ++ [COLON])
        let cur := ⟨input, emit.out, loop.session⟩
        let cur ←
          if set.index.childNeedsRewrite path key then rewriteValue fuel depth (path ++ [.key key]) cur
          else copySpan fuel depth cur
        rewriteMembers fuel depth path ⟨cur.input, ⟨cur.out, emit.any⟩, cur.session, true, loop.satisfied⟩

/-- The loop of `rewrite_array`. -/
def rewriteElems : Nat → Nat → List PathToken → ElemLoop → Except JsonError ElemLoop
  | 0, _, _, _ => .error .invalidJson
  | fuel + 1, depth, path, loop => do
    let (closed, input) ← nextItem RBRACKET (decide (0 < loop.origIdx)) loop.input
    if closed then .ok { loop with input := input }
    else do
      let (emit, sess) :=
        match set.index.mutateAtIndex path loop.origIdx with
        | some idx => tryEmitAdd sj set idx loop.emit loop.session
        | none => (loop.emit, loop.session)
      match replaceOrRemove (set.opAt (set.index.mutateAtIndex path loop.origIdx)) with
      | some (idx, op) => do
        let (emit, input, sess) ← rewriteArrayMember sj set (rewriteValue fuel) fuel depth
          (path ++ [.index loop.origIdx]) idx op emit input sess
        rewriteElems fuel depth path ⟨input, emit, sess, loop.origIdx + 1⟩
      | none => do
        let emit := emit.item []
        let cur := ⟨input, emit.out, sess⟩
        let cur ←
          if set.index.childIndexNeedsRewrite path loop.origIdx then
            rewriteValue fuel depth (path ++ [.index loop.origIdx]) cur
          else copySpan fuel depth cur
        rewriteElems fuel depth path ⟨cur.input, ⟨cur.out, emit.any⟩, cur.session, loop.origIdx + 1⟩

end

/-! ## Documents -/

/-- `RewriteOutcome`: nothing is written for a set that only extracts. -/
structure RewriteOutcome where
  output : Option Bytes
deriving DecidableEq

def finishDocument (sess : RewriteSession) (store : Option JsonOpStore) (output : Option Bytes) :
    RewriteOutcome × Option JsonOpStore :=
  (⟨output⟩, store.map (sess.flushToStore sj))

/-- The session at the start of the walk. -/
def startSession (store : Option JsonOpStore) : RewriteSession :=
  match store with
  | some store => preloadContextSources set store (.new set)
  | none => .new set

def rewriteDocument (input : Bytes) (store : Option JsonOpStore) : Except JsonError (RewriteOutcome × Option JsonOpStore) :=
  if (fromUtf8 input).isNone then .error .invalidJson
  else
    let sess := startSession set store
    let start := skipWs (skipBom input)
    if start.isEmpty then .error .invalidJson
    else
      let emit := !set.extractOnly
      match rootReplace sj set sess with
      | (some root, sess) => do
        let (rest, sess) ← consumeValueForMutate sj set (rewriteValue sj set input.length) input.length
          MAX_JSON_DEPTH [] start sess
        if (skipWs rest).isEmpty then
          .ok (finishDocument sj sess store (if emit then some root else none))
        else .error .invalidJson
      | (none, sess) => do
        let cur ← rewriteValue sj set input.length MAX_JSON_DEPTH []
          ⟨start, if emit then some [] else none, sess⟩
        if (skipWs cur.input).isEmpty then .ok (finishDocument sj cur.session store cur.out)
        else .error .invalidJson

end

end Praxis.JsonOps
