/-
Skipping over JSON without building values. The position in the input is the list of bytes that
are left. The functions that call each other, and their loops, take a fuel: every call one level
down and every pass of a loop has consumed a byte, so the length of the input is enough.
Nesting is counted down from the limit.
-/
import Praxis.Lib.Json

namespace Praxis.JsonOps

open Praxis.Lib Praxis.Lib.Json

/-! ## Errors and limits -/

def MAX_JSON_DEPTH : Nat := 128

inductive JsonError where
  | invalidJson
  | depth
  | compile (msg : String)
deriving Repr, DecidableEq

/-! ## Encoding strings -/

def hex (digit : UInt8) : UInt8 := if digit ≤ 9 then digit + 48 else if digit ≤ 15 then digit - 10 + 97 else 48

/-- One byte of `encode_json_string`. -/
def encodeByte (b : UInt8) : Bytes :=
  if b = QUOTE then [BACKSLASH, QUOTE]
  else if b = BACKSLASH then [BACKSLASH, BACKSLASH]
  else if b = 10 then [BACKSLASH, 110]
  else if b = 13 then [BACKSLASH, 114]
  else if b = 9 then [BACKSLASH, 116]
  else if b ≤ 0x1F then [BACKSLASH, 117, 48, 48, hex (b >>> 4), hex (b &&& 0x0F)]
  else [b]

def encodeJsonString (s : String) : Bytes := quoted ((utf8 s).flatMap encodeByte)

/-! ## Bytes -/

variable (input : Bytes)

def skipBom : Bytes := if BOM.isPrefixOf input then input.drop BOM.length else input

def skipWs : Bytes := input.dropWhile isWs

def nextByte : Bytes → Except JsonError UInt8
  | [] => .error .invalidJson
  | b :: _ => .ok b

def expectByte (expected : UInt8) : Except JsonError Bytes := do
  let b ← nextByte input
  if b = expected then .ok (input.drop 1) else .error .invalidJson

/-! ## Strings -/

/-- `find_json_string_delim`: where the next quote, backslash or control byte is. -/
def findJsonStringDelim (bytes : Bytes) : Option Nat :=
  bytes.findIdx? fun b => b == QUOTE || b == BACKSLASH || decide (b < 0x20)

def skipHexDigits : Nat → Bytes → Except JsonError Bytes
  | 0, input => .ok input
  | n + 1, input => do
    let h ← nextByte input
    if isHexDigit h then skipHexDigits n (input.drop 1) else .error .invalidJson

/-- `skip_escape_sequence`, after the backslash. -/
def skipEscapeSequence : Except JsonError Bytes := do
  let esc ← nextByte input
  if isSimpleEscape esc then .ok (input.drop 1)
  else if esc = 117 then skipHexDigits 4 (input.drop 1)
  else .error .invalidJson

/-- The loop of `skip_string_with_meta`. -/
def skipStringLoop : Nat → Bytes → Bool → Except JsonError (Bytes × Bool)
  | 0, _, _ => .error .invalidJson
  | fuel + 1, input, escaped =>
    match findJsonStringDelim input with
    | none => .error .invalidJson
    | some offset =>
      match input.drop offset with
      | [] => .error .invalidJson
      | b :: rest =>
        if b = QUOTE then .ok (rest, escaped)
        else if b < 0x20 then .error .invalidJson
        else do
          let rest ← skipEscapeSequence rest
          skipStringLoop fuel rest true

/-- `skip_string_with_meta`: the rest, and whether there were escapes. -/
def skipStringWithMeta : Except JsonError (Bytes × Bool) := do
  let rest ← expectByte input QUOTE
  skipStringLoop (rest.length + 1) rest false

def skipString : Except JsonError Bytes := do
  let (rest, _) ← skipStringWithMeta input
  .ok rest

/-! ## Literals and numbers -/

def skipLiteral (lit : Bytes) : Except JsonError Bytes :=
  if lit.isPrefixOf input then .ok (input.drop lit.length) else .error .invalidJson

def skipDigits : Bytes := input.dropWhile isDigit

/-- Digits where at least one has to be. -/
def skipDigits1 : Except JsonError Bytes :=
  if input.head?.any isDigit then .ok (skipDigits input) else .error .invalidJson

def skipFraction : Except JsonError Bytes := if input.head? = some DOT then skipDigits1 (input.drop 1) else .ok input

def skipExponent : Except JsonError Bytes :=
  if input.head?.any isExp then
    let input := input.drop 1
    skipDigits1 (if input.head?.any isSign then input.drop 1 else input)
  else .ok input

def skipNumberFracExp : Except JsonError Bytes := do
  let input ← skipFraction input
  skipExponent input

def skipNumber (start : Bytes) : Except JsonError Bytes := do
  let b ← nextByte start
  let input := if b = MINUS then start.drop 1 else start
  let first ← nextByte input
  let input ←
    if first = ZERO then .ok (input.drop 1)
    else if isDigit first then .ok (skipDigits input)
    else .error .invalidJson
  let input ← skipNumberFracExp input
  if input.length = start.length then .error .invalidJson else .ok input

/-! ## Values -/

/-- `bump_depth`, on the nesting that is left. -/
def bumpDepth : Nat → Except JsonError Nat
  | 0 => .error .depth
  | depth + 1 => .ok depth

/-- The head of each loop over the items of a container: either the closing bracket, and then
nothing is left to do, or the start of the next item. -/
def nextItem (close : UInt8) (seen : Bool) (input : Bytes) : Except JsonError (Bool × Bytes) := do
  let input := skipWs input
  let b ← nextByte input
  if b = close then .ok (true, input.drop 1)
  else if seen then do
    let input ← expectByte input COMMA
    let input := skipWs input
    let b ← nextByte input
    if b = close then .error .invalidJson else .ok (false, input)
  else .ok (false, input)

/-- `skip_object`, with its loop. -/
def skipObject (members : Bytes → Nat → Bool → Except JsonError Bytes) (input : Bytes) (depth : Nat) :
    Except JsonError Bytes := do
  let depth ← bumpDepth depth
  let input ← expectByte input LBRACE
  members input depth false

/-- `skip_array`, with its loop. -/
def skipArray (elems : Bytes → Nat → Bool → Except JsonError Bytes) (input : Bytes) (depth : Nat) :
    Except JsonError Bytes := do
  let depth ← bumpDepth depth
  let input ← expectByte input LBRACKET
  elems input depth false

mutual

def skipValue : Nat → Bytes → Nat → Except JsonError Bytes
  | 0, _, _ => .error .invalidJson
  | fuel + 1, input, depth => do
    let input := skipWs input
    let b ← nextByte input
    if b = LBRACE then skipObject (skipMembers fuel) input depth
    else if b = LBRACKET then skipArray (skipElems fuel) input depth
    else if b = QUOTE then skipString input
    else if b = 116 then skipLiteral input TRUE
    else if b = 102 then skipLiteral input FALSE
    else if b = 110 then skipLiteral input NULL
    else if b = MINUS ∨ isDigit b = true then skipNumber input
    else .error .invalidJson

/-- The loop of `skip_object`. -/
def skipMembers : Nat → Bytes → Nat → Bool → Except JsonError Bytes
  | 0, _, _, _ => .error .invalidJson
  | fuel + 1, input, depth, seen => do
    let (closed, input) ← nextItem RBRACE seen input
    if closed then .ok input
    else do
      let input ← skipString input
      let input ← expectByte (skipWs input) COLON
      let input ← skipValue fuel input depth
      skipMembers fuel input depth true

/-- The loop of `skip_array`. -/
def skipElems : Nat → Bytes → Nat → Bool → Except JsonError Bytes
  | 0, _, _, _ => .error .invalidJson
  | fuel + 1, input, depth, seen => do
    let (closed, input) ← nextItem RBRACKET seen input
    if closed then .ok input
    else do
      let input ← skipValue fuel input depth
      skipElems fuel input depth true

end

end Praxis.JsonOps
