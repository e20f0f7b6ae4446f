/-
The incremental decoder. A chunk is parsed in runs of data bytes between line ends; a partial
byte order mark, a CR at the end of a chunk, a partial line and a partial record are carried to
the next chunk.
-/
import Praxis.Sse.Record

namespace Praxis.Sse

open Praxis.Lib

structure SseLimits where
  maxLineBytes : Nat
  maxRecordBytes : Nat
  maxFieldsPerRecord : Nat
deriving Repr, DecidableEq

def SseLimits.default : SseLimits :=
  { maxLineBytes := 1048576, maxRecordBytes := 10485760, maxFieldsPerRecord := 4096 }

inductive SseDecodeError where
  | lineTooLong (size limit : Nat)
  | recordTooLarge (size limit : Nat)
  | tooManyFields (count limit : Nat)
  | finished
deriving Repr, DecidableEq

structure SseBatch where
  records : List SseRecord
  trailing : Option SseRecord
  error : Option SseDecodeError
deriving Repr, DecidableEq

inductive DecoderState where
  | active
  | finished
  | poisoned (err : SseDecodeError)
deriving Repr, DecidableEq

structure SseDecoder where
  lineBuf : Bytes
  fields : List SseField
  prevCr : Bool
  limits : SseLimits
  recordBytes : Nat
  state : DecoderState
  bomLen : Nat
  bomResolved : Bool
deriving Repr, DecidableEq

def SseDecoder.withLimits (lim : SseLimits) : SseDecoder :=
  { lineBuf := [], fields := [], prevCr := false, limits := lim, recordBytes := 0, state := .active
    bomLen := 0, bomResolved := false }

/-! ## Lines and fields -/

def classify (name val : Bytes) : SseField :=
  if name = [] then .comment val
  else if name = ascii "event" then .event val
  else if name = ascii "data" then .data val
  else if name = ascii "id" then .id val
  else if name = ascii "retry" then .retry val
  else .unknown name val

/-- `strip_prefix(b" ")`, or the value as it is. -/
def stripSpace : Bytes → Bytes
  | [] => []
  | b :: rest => if b = SPACE then rest else b :: rest

/-- `classify_line`: split at the first colon. -/
def classifyLine (line : Bytes) : SseField :=
  match line.dropWhile (· != COLON) with
  | [] => classify line []
  | _ :: rest => classify (line.takeWhile (· != COLON)) (stripSpace rest)

def fieldCost : SseField → Nat
  | .unknown name val => name.length + val.length
  | field => field.value.length

namespace SseDecoder

variable (d : SseDecoder)

def pushField (field : SseField) : Except SseDecodeError SseDecoder :=
  if d.fields.length ≥ d.limits.maxFieldsPerRecord then
    .error (.tooManyFields (d.fields.length + 1) d.limits.maxFieldsPerRecord)
  else
    let newBytes := d.recordBytes + fieldCost field
    if newBytes > d.limits.maxRecordBytes then .error (.recordTooLarge newBytes d.limits.maxRecordBytes)
    else .ok { d with recordBytes := newBytes, fields := d.fields ++ [field] }

def processLine : Except SseDecodeError (SseDecoder × Option SseRecord) :=
  if d.lineBuf.isEmpty then
    if d.fields.isEmpty then .ok (d, none)
    else .ok ({ d with fields := [], recordBytes := 0 }, some ⟨d.fields⟩)
  else
    match d.pushField (classifyLine d.lineBuf) with
    | .error e => .error e
    | .ok d => .ok (d, none)

def endLine (recs : List SseRecord) : Except SseDecodeError (SseDecoder × List SseRecord) :=
  match d.processLine with
  | .error e => .error e
  | .ok (d, record) => .ok ({ d with lineBuf := [] }, recs ++ record.toList)

def extendLine (run : Bytes) : Except SseDecodeError SseDecoder :=
  let size := d.lineBuf.length + run.length
  if size > d.limits.maxLineBytes then .error (.lineTooLong size d.limits.maxLineBytes)
  else .ok { d with lineBuf := d.lineBuf ++ run }

/-! ## Bytes -/

/-- What feeding bytes has led to; on an error the records completed before it are kept. -/
structure Fed where
  decoder : SseDecoder
  records : List SseRecord
  error : Option SseDecodeError

/-- `handle_cr`, on the bytes after the CR: the line ends, and an LF right after it, in this
chunk or at the start of the next, is passed over. -/
def handleCr (recs : List SseRecord) (rest : Bytes) : Except SseDecodeError (SseDecoder × List SseRecord × Bytes) :=
  match d.endLine recs with
  | .error e => .error e
  | .ok (d, recs) =>
    match rest with
    | [] => .ok ({ d with prevCr := true }, recs, [])
    | b :: rest => if b = LF then .ok (d, recs, rest) else .ok (d, recs, b :: rest)

/-- The loop of `feed`; every pass consumes a byte, so as many passes as there are bytes do. -/
def feedLoop : Nat → SseDecoder → List SseRecord → Bytes → Fed
  | 0, d, recs, _ => ⟨d, recs, none⟩
  | _ + 1, d, recs, [] => ⟨d, recs, none⟩
  | fuel + 1, d, recs, b :: rest =>
    if b = LF then
      match d.endLine recs with
      | .error e => ⟨d, recs, some e⟩
      | .ok (d, recs) => feedLoop fuel d recs rest
    else if b = CR then
      match d.handleCr recs rest with
      | .error e => ⟨d, recs, some e⟩
      | .ok (d, recs, rest) => feedLoop fuel d recs rest
    else
      match d.extendLine ((b :: rest).takeWhile fun c => !isTerminator c) with
      | .error e => ⟨d, recs, some e⟩
      | .ok d => feedLoop fuel d recs ((b :: rest).dropWhile fun c => !isTerminator c)

def feed (recs : List SseRecord) (bytes : Bytes) : Fed :=
  if bytes.isEmpty then ⟨d, recs, none⟩
  else feedLoop bytes.length { d with prevCr := false } recs (skipLf d.prevCr bytes)

/-- How the search for a byte order mark in a chunk ends. -/
inductive BomMatch where
  | more (matched : Nat)
  | mismatch
  | complete (rest : Bytes)

/-- The loop of `parse`. -/
def matchBom (matched : Nat) : Bytes → BomMatch
  | [] => if matched < BOM.length then .more matched else .complete []
  | b :: rest =>
    if matched < BOM.length then
      if BOM[matched]? = some b then matchBom (matched + 1) rest else .mismatch
    else .complete (b :: rest)

def parse (chunk : Bytes) : Fed :=
  if d.bomResolved then d.feed [] chunk
  else
    match matchBom d.bomLen chunk with
    | .more matched => ⟨{ d with bomLen := matched }, [], none⟩
    | .mismatch =>
      match ({ d with bomResolved := true, bomLen := 0 } : SseDecoder).feed [] (BOM.take d.bomLen) with
      | ⟨d, recs, some e⟩ => ⟨d, recs, some e⟩
      | ⟨d, recs, none⟩ => d.feed recs chunk
    | .complete rest => ({ d with bomResolved := true, bomLen := 0 } : SseDecoder).feed [] rest

/-! ## The interface -/

def poison (err : SseDecodeError) : SseDecoder :=
  { d with state := .poisoned err, lineBuf := [], fields := [], recordBytes := 0 }

def push (chunk : Bytes) : SseDecoder × SseBatch :=
  match d.state with
  | .finished => (d, ⟨[], none, some .finished⟩)
  | .poisoned err => (d, ⟨[], none, some err⟩)
  | .active =>
    match d.parse chunk with
    | ⟨d, recs, none⟩ => (d, ⟨recs, none, none⟩)
    | ⟨d, recs, some err⟩ => (d.poison err, ⟨recs, none, some err⟩)

/-- The first part of `flush`: a partial byte order mark is data after all. -/
def replayBom : Fed :=
  if !d.bomResolved && 0 < d.bomLen then
    ({ d with bomResolved := true, bomLen := 0 } : SseDecoder).feed [] (BOM.take d.bomLen)
  else ⟨d, [], none⟩

/-- The second part of `flush`: the partial line is a field, the fields are the trailing record. -/
def flushLine : SseDecoder × Except SseDecodeError (Option SseRecord) :=
  let committed : Except SseDecodeError SseDecoder :=
    if d.lineBuf.isEmpty then .ok d
    else
      match d.processLine with
      | .error e => .error e
      | .ok (d, _) => .ok { d with lineBuf := [] }
  match committed with
  | .error e => (d, .error e)
  | .ok d =>
    if d.fields.isEmpty then (d, .ok none)
    else ({ d with recordBytes := 0, fields := [] }, .ok (some ⟨d.fields⟩))

def flush : SseDecoder × Except SseDecodeError (Option SseRecord) :=
  match d.replayBom with
  | ⟨d, _, some e⟩ => (d, .error e)
  | ⟨d, _, none⟩ => d.flushLine

def finish : SseDecoder × SseBatch :=
  match d.state with
  | .poisoned err => (d, ⟨[], none, some err⟩)
  | .finished => (d, ⟨[], none, none⟩)
  | .active =>
    match d.flush with
    | (d, .ok trailing) => ({ d with state := .finished }, ⟨[], trailing, none⟩)
    | (d, .error err) => (d.poison err, ⟨[], none, some err⟩)

/-- A stream given chunk by chunk: the decoder after it and the records completed on the way. -/
def pushAll (chunks : List Bytes) : SseDecoder × List SseRecord :=
  chunks.foldl (fun p chunk => ((p.1.push chunk).1, p.2 ++ (p.1.push chunk).2.records)) (d, [])

end SseDecoder

/-- A whole stream through a fresh decoder: all records, then what `finish` reports. -/
def decodeChunks (lim : SseLimits) (chunks : List Bytes) : SseBatch :=
  let (d, recs) := (SseDecoder.withLimits lim).pushAll chunks
  let last := d.finish.2
  { records := recs ++ last.records, trailing := last.trailing, error := last.error }

end Praxis.Sse
