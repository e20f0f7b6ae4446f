/-
Which host names the SNI parser accepts: DNS names that are no IP address literals. The literal check
follows the standard library's address parser.
-/
import Praxis.Lib.Utf8

namespace Praxis.Sni

open Praxis.Lib (fromUtf8)

inductive SniParseError where
  | tooShort
  | notHandshake
  | notClientHello
  | needMoreData
  | malformedExtension
  | emptyHostname
  | invalidHostname
deriving Repr, DecidableEq

/-! ## IP address literals -/

namespace IpAddr

/-- The standard library's `char::to_digit` -/
def toDigit (radix : Nat) (c : Char) : Option Nat :=
  let digit :=
    if '0' ≤ c ∧ c ≤ '9' then some (c.toNat - '0'.toNat)
    else if 'a' ≤ c ∧ c ≤ 'z' then some (c.toNat - 'a'.toNat + 10)
    else if 'A' ≤ c ∧ c ≤ 'Z' then some (c.toNat - 'A'.toNat + 10)
    else none
  digit.filter (· < radix)

/-- `Parser::read_number`: digits up to a count and a bound, without a leading zero unless allowed. Like
the readers below it returns what is left of the text. -/
def readNumber (radix maxDigits bound : Nat) (allowZeroPrefix : Bool) (text : List Char) : Option (List Char) :=
  let digits := text.takeWhile fun c => (toDigit radix c).isSome
  let value := digits.foldl (fun n c => n * radix + (toDigit radix c).getD 0) 0
  if digits.length = 0 ∨ maxDigits < digits.length then none
  else if !allowZeroPrefix && text.head? == some '0' && decide (1 < digits.length) then none
  else if bound < value then none
  else some (text.drop digits.length)

def readSeparator (sep : Char) (index : Nat) (inner : List Char → Option (List Char)) (text : List Char) :
    Option (List Char) :=
  if index = 0 then inner text
  else
    match text with
    | c :: rest => if c = sep then inner rest else none
    | [] => none

def readIpv4Addr (text : List Char) : Option (List Char) :=
  [0, 1, 2, 3].foldlM (fun text i => readSeparator '.' i (readNumber 10 3 255 false) text) text

/-- `read_groups`, with `left` groups to go: the groups read, whether they end in an IPv4 address. -/
def readGroups : (left i : Nat) → List Char → Nat × Bool × List Char
  | 0, i, text => (i, false, text)
  | left + 1, i, text =>
    let ipv4 := if 0 < left then readSeparator ':' i readIpv4Addr text else none
    match ipv4 with
    | some rest => (i + 2, true, rest)
    | none =>
      match readSeparator ':' i (readNumber 16 4 65535 true) text with
      | some rest => readGroups left (i + 1) rest
      | none => (i, false, text)

def readIpv6Addr (text : List Char) : Option (List Char) :=
  match readGroups 8 0 text with
  | (headSize, headIpv4, rest) =>
    if headSize = 8 then some rest
    else if headIpv4 then none
    else
      match rest with
      | ':' :: ':' :: rest => some (readGroups (8 - (headSize + 1)) 0 rest).2.2
      | _ => none

/-- Whether the text parses as an `IpAddr`. -/
def isIpAddr (text : List Char) : Bool :=
  ((readIpv4Addr text).or (readIpv6Addr text)).any List.isEmpty

/-- Whether the text parses as an `Ipv6Addr`. -/
def isIpv6Addr (text : List Char) : Bool := (readIpv6Addr text).any List.isEmpty

example : isIpAddr "203.0.113.7".toList = true ∧ isIpAddr "203.0.113.07".toList = false ∧
    isIpAddr "2001:db8::192.0.2.1".toList = true ∧ isIpAddr "1:2:3:4:5:6:7::8".toList = false := by decide

end IpAddr

def rejectIpLiteral (hostname : List Char) : Except SniParseError Unit :=
  if IpAddr.isIpAddr hostname then .error .invalidHostname
  else
    match hostname with
    | '[' :: inner =>
      if inner.getLast? = some ']' ∧ IpAddr.isIpv6Addr inner.dropLast then .error .invalidHostname else .ok ()
    | _ => .ok ()

/-! ## DNS names -/

inductive DnsLabelError where
  | emptyLabel
  | labelTooLong
  | invalidCharacter
  | hyphenBoundary
deriving Repr, DecidableEq

inductive DnsHostnameError where
  | hostnameTooLong
  | label (error : DnsLabelError)
deriving Repr, DecidableEq

def DnsLabelError.message : DnsLabelError → String
  | .emptyLabel => "label is empty"
  | .labelTooLong => "label exceeds 63 characters"
  | .invalidCharacter => "contains invalid characters"
  | .hyphenBoundary => "label must not start or end with a hyphen"

def DnsHostnameError.message : DnsHostnameError → String
  | .hostnameTooLong => "exceeds 253 characters"
  | .label error => error.message

def maxLabelLen : Nat := 63

def maxHostnameLen : Nat := 253

/-- The length of a text in bytes. -/
def byteLen (text : List Char) : Nat := (text.flatMap String.utf8EncodeChar).length

def validateLabel (label : List Char) (allowUnderscore : Bool) : Except DnsLabelError Unit :=
  if label.isEmpty then .error .emptyLabel
  else if maxLabelLen < byteLen label then .error .labelTooLong
  else if !label.all fun c => c.isAlphanum || c == '-' || (allowUnderscore && c == '_') then .error .invalidCharacter
  else if label.head? == some '-' || label.getLast? == some '-' then .error .hyphenBoundary
  else .ok ()

def validateDnsLabel (label : List Char) : Except DnsLabelError Unit := validateLabel label false

def validateDnsHostname (hostname : List Char) : Except DnsHostnameError Unit :=
  if maxHostnameLen < byteLen hostname then .error .hostnameTooLong
  else (hostname.splitOn '.').forM fun label => (validateDnsLabel label).mapError .label

/-! ## Host names -/

/-- What `parse_sni_extension` accepts as a host name. -/
def hostName (nameBytes : List UInt8) : Except SniParseError String :=
  if nameBytes.isEmpty then .error .emptyHostname
  else
    match fromUtf8 nameBytes with
    | none => .error .invalidHostname
    | some name => do
      rejectIpLiteral name.toList
      (validateDnsHostname name.toList).mapError fun _ => .invalidHostname
      pure name

end Praxis.Sni
