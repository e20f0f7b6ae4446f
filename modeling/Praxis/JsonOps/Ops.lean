/-
Pointer operations as the builder compiles them, and RFC 6901 pointers. The crate `serde_json`
is a parameter; what is assumed of it is in `SerdeJson.Laws`.
-/
import Praxis.JsonOps.Skip
import Mathlib.Algebra.Ring.Nat

namespace Praxis.JsonOps

open Praxis.Lib Praxis.Lib.Json

/-! ## The crate `serde_json` -/

/-- `serde_json::Value`: a tree whose objects are maps. -/
structure Value where
  tree : Tree
  distinct : tree.distinct = true

structure SerdeJson where
  /-- `from_slice` for a `String`. -/
  decodeString : Bytes → Option String
  /-- `to_vec` of a `String`. -/
  encodeString : String → Bytes
  /-- `from_slice` for a `Value`. -/
  decodeValue : Bytes → Option Value
  /-- `to_vec` of a `Value`. -/
  encodeValue : Value → Bytes

/-- Strings are read as the RFC says and only from UTF-8; what is written is a JSON text without
white space around it for what was to be written. -/
structure SerdeJson.Laws (sj : SerdeJson) : Prop where
  decode_denotes : ∀ {body : Bytes} {cs : List Char}, Denotes body cs →
    sj.decodeString (quoted body) = some (String.ofList cs)
  decode_utf8 : ∀ {tok : Bytes} {s : String}, sj.decodeString tok = some s → IsUtf8 tok
  encodeString_denotes : ∀ s : String, ∃ body : Bytes, sj.encodeString s = quoted body ∧ Denotes body s.toList
  encodeValue_text : ∀ v : Value, ∃ c : Cst, sj.encodeValue v = c.text ∧ c.tree sj.decodeString = some v.tree

/-! ## Operations -/

inductive OpKind where
  | add
  | replace
  | remove
  | extract
deriving Repr, DecidableEq

def OpKind.isMutating : OpKind → Bool
  | .extract => false
  | _ => true

inductive ExtractDest where
  | metadata (key : String)
  | structured (ns key : String)
  | header (name : String)
deriving Repr, DecidableEq

inductive ValueSource where
  | static (bytes : Bytes)
  | metadata (key : String)
  | structured (ns key : String)
deriving Repr, DecidableEq

structure CompiledOp where
  pointer : String
  tokens : List String
  kind : OpKind
  source : Option ValueSource
  dest : Option ExtractDest
  encodedLastToken : Option Bytes
deriving Repr, DecidableEq

/-! ## Pointers -/

def unescapeToken : List Char → Except JsonError (List Char)
  | [] => .ok []
  | ch :: rest =>
    if ch ≠ '~' then do
      let out ← unescapeToken rest
      .ok (ch :: out)
    else
      match rest with
      | [] => .error (.compile "truncated JSON Pointer escape")
      | other :: rest =>
        if other = '0' then do
          let out ← unescapeToken rest
          .ok ('~' :: out)
        else if other = '1' then do
          let out ← unescapeToken rest
          .ok ('/' :: out)
        else .error (.compile s!"invalid JSON Pointer escape '~{other}'")

def unescapeTokens : List (List Char) → Except JsonError (List String)
  | [] => .ok []
  | token :: rest => do
    let token ← unescapeToken token
    let tokens ← unescapeTokens rest
    .ok (String.ofList token :: tokens)

def compilePointer (raw : String) : Except JsonError (List String) :=
  match raw.toList with
  | [] => .ok []
  | ch :: rest =>
    if ch = '/' then unescapeTokens (rest.splitOn '/')
    else .error (.compile s!"JSON Pointer '{raw}' must be empty or start with '/'")

def pointersOverlap (a b : List String) : Bool :=
  let n := min a.length b.length
  a.take n == b.take n

/-- The value of a run of decimal digits. -/
def decimalValue (digits : List Char) : Nat := digits.foldl (fun n d => n * 10 + (d.toNat - 48)) 0

/-- `array_index`: a number without leading zeros that fits a `usize`. -/
def arrayIndex (token : String) : Option Nat :=
  match token.toList with
  | [] => none
  | first :: rest =>
    if first = '0' ∧ rest ≠ [] then none
    else if (first :: rest).all Char.isDigit then
      let n := decimalValue (first :: rest)
      if n < 2 ^ 64 then some n else none
    else none

end Praxis.JsonOps
