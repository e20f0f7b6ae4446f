/-
Server-sent events: fields and records, the validating builder and the canonical encoder.
-/
import Praxis.Lib.Ascii
import Praxis.Lib.Lines

namespace Praxis.Sse

open Praxis.Lib

abbrev Bytes := List UInt8

/-- The bytes of an ASCII text. -/
def ascii (s : String) : Bytes := s.toList.map fun c => UInt8.ofNat c.toNat

/-- One field line of a record. -/
inductive SseField where
  | event (val : Bytes)
  | data (val : Bytes)
  | id (val : Bytes)
  | retry (val : Bytes)
  | comment (val : Bytes)
  | unknown (name val : Bytes)
deriving Repr, DecidableEq

structure SseRecord where
  fields : List SseField
deriving Repr, DecidableEq

/-- The name a field is written with; empty for a comment. -/
def SseField.name : SseField → Bytes
  | .event _ => ascii "event"
  | .data _ => ascii "data"
  | .id _ => ascii "id"
  | .retry _ => ascii "retry"
  | .comment _ => []
  | .unknown name _ => name

def SseField.value : SseField → Bytes
  | .event v => v
  | .data v => v
  | .id v => v
  | .retry v => v
  | .comment v => v
  | .unknown _ v => v

/-! ## Builder -/

inductive SseBuildError where
  | newlineInValue
  | invalidFieldName
  | emptyRecord
deriving Repr, DecidableEq

def SPACE : UInt8 := 32

def hasNewline (bytes : Bytes) : Bool := bytes.any isTerminator

def isKnownName (name : Bytes) : Bool :=
  name == ascii "event" || name == ascii "data" || name == ascii "id" || name == ascii "retry"

def validateField : SseField → Except SseBuildError Unit
  | .unknown name val =>
    if hasNewline val then .error .newlineInValue
    else if name.isEmpty || name.any (fun b => b == COLON || isTerminator b) || isKnownName name then
      .error .invalidFieldName
    else .ok ()
  | field => if hasNewline field.value then .error .newlineInValue else .ok ()

def validateFields : List SseField → Except SseBuildError Unit
  | [] => .ok ()
  | field :: rest =>
    match validateField field with
    | .error e => .error e
    | .ok () => validateFields rest

/-- `SseRecordBuilder::build` on the accumulated fields. -/
def SseRecord.build (fields : List SseField) : Except SseBuildError SseRecord :=
  if fields.isEmpty then .error .emptyRecord
  else
    match validateFields fields with
    | .error e => .error e
    | .ok () => .ok ⟨fields⟩

/-! ## Encoder -/

def writeNamed (name val : Bytes) : Bytes := name ++ [COLON, SPACE] ++ val ++ [LF]

/-- The line of one field, without its line end. -/
def encodeLine (field : SseField) : Bytes := field.name ++ [COLON, SPACE] ++ field.value

def encodeFields : List SseField → Bytes
  | [] => []
  | field :: rest => writeNamed field.name field.value ++ encodeFields rest

def encode (record : SseRecord) : Bytes := encodeFields record.fields ++ [LF]

/-- `encode_into` for one record after another into one buffer. -/
def encodeAll : List SseRecord → Bytes
  | [] => []
  | record :: rest => encode record ++ encodeAll rest

end Praxis.Sse
