/-
The builder: pointers are compiled and values serialised as the calls come in; `build` refuses
operations that overlap. The header-name check of the crate `http` is a parameter.
-/
import Praxis.JsonOps.Index

namespace Praxis.JsonOps

open Praxis.Lib Praxis.Lib.Json

/-! ## Compiled sets -/

/-- Operations with their index. The size hint for the output buffer is left out. -/
structure CompiledOpSet where
  ops : List CompiledOp
  index : OpPathIndex
  extractOnly : Bool

def CompiledOpSet.finalize (ops : List CompiledOp) : CompiledOpSet :=
  { ops := ops
    index := .build ops
    extractOnly := !ops.isEmpty && ops.all fun op => decide (op.kind = .extract) }

/-! ## Values -/

/-- `JsonValue`: a value to inject, static or found in the store at apply time. -/
inductive JsonValue where
  | staticJson (val : Value)
  | metadata (key : String)
  | structured (ns key : String)

/-- The source of a value; a static one is serialised when the value is made. -/
def JsonValue.source (sj : SerdeJson) : JsonValue → ValueSource
  | .staticJson val => .static (sj.encodeValue val)
  | .metadata key => .metadata key
  | .structured ns key => .structured ns key

def validateValueSource : ValueSource → Except JsonError Unit
  | .static _ => .ok ()
  | .metadata key => if key.isEmpty then .error (.compile "'metadata' must not be empty") else .ok ()
  | .structured ns key =>
    if ns.isEmpty || key.isEmpty then .error (.compile "structured_metadata namespace and key must not be empty")
    else .ok ()

def validateExtractDest (headerNameOk : String → Bool) : ExtractDest → Except JsonError Unit
  | .metadata key => if key.isEmpty then .error (.compile "extract 'metadata' must not be empty") else .ok ()
  | .header name =>
    if name.isEmpty then .error (.compile "extract 'header' must not be empty")
    else if headerNameOk name then .ok ()
    else .error (.compile s!"extract 'header' has invalid header name '{name}'")
  | .structured ns key =>
    if ns.isEmpty || key.isEmpty then
      .error (.compile "extract structured_metadata namespace and key must not be empty")
    else .ok ()

/-! ## Calls -/

/-- One call on the builder. -/
inductive Call where
  | extract (pointer : String) (dest : ExtractDest)
  | add (pointer : String) (val : JsonValue)
  | replace (pointer : String) (val : JsonValue)
  | remove (pointer : String)

def encodedLastObjectToken (tokens : List String) : Option Bytes := tokens.getLast?.map encodeJsonString

/-- The operation that a call compiles to. -/
def compileCall (sj : SerdeJson) (headerNameOk : String → Bool) : Call → Except JsonError CompiledOp
  | .extract pointer dest => do
    validateExtractDest headerNameOk dest
    let tokens ← compilePointer pointer
    .ok { pointer, tokens, kind := .extract, source := none, dest := some dest, encodedLastToken := none }
  | .add pointer val => do
    let tokens ← compilePointer pointer
    if tokens.isEmpty then .error (.compile "add cannot target the document root (pointer \"\")")
    else do
      validateValueSource (val.source sj)
      .ok { pointer, tokens, kind := .add, source := some (val.source sj), dest := none
            encodedLastToken := encodedLastObjectToken tokens }
  | .replace pointer val => do
    let tokens ← compilePointer pointer
    validateValueSource (val.source sj)
    .ok { pointer, tokens, kind := .replace, source := some (val.source sj), dest := none
          encodedLastToken := encodedLastObjectToken tokens }
  | .remove pointer => do
    let tokens ← compilePointer pointer
    if tokens.isEmpty then .error (.compile "remove cannot target the document root (pointer \"\")")
    else
      .ok { pointer, tokens, kind := .remove, source := none, dest := none
            encodedLastToken := encodedLastObjectToken tokens }

/-- The calls in order; the first that fails ends the chain. -/
def compileCalls (sj : SerdeJson) (headerNameOk : String → Bool) : List Call → Except JsonError (List CompiledOp)
  | [] => .ok []
  | call :: rest => do
    let op ← compileCall sj headerNameOk call
    let ops ← compileCalls sj headerNameOk rest
    .ok (op :: ops)

/-! ## Overlaps -/

def overlappingOps (a b : CompiledOp) : Bool :=
  match a.kind.isMutating, b.kind.isMutating with
  | true, true => pointersOverlap a.tokens b.tokens
  | false, false => a.tokens == b.tokens
  | _, _ => false

def rejectOverlaps : List CompiledOp → Except JsonError Unit
  | [] => .ok ()
  | a :: rest =>
    match rest.find? (overlappingOps a) with
    | some b => .error (.compile s!"overlapping JSON Pointers: '{a.pointer}' and '{b.pointer}'")
    | none => rejectOverlaps rest

/-- `JsonOpsBuilder::build`, after the calls. -/
def buildOps (sj : SerdeJson) (headerNameOk : String → Bool) (calls : List Call) : Except JsonError CompiledOpSet := do
  let ops ← compileCalls sj headerNameOk calls
  rejectOverlaps ops
  .ok (.finalize ops)

end Praxis.JsonOps
