/-
The `grpc-timeout` header. Up to eight digits and a unit are read, and a remaining budget is written
in the coarsest unit that is exact, or cut off in the finest unit that has room for it. A duration is
its number of nanoseconds.
-/
import Mathlib.Data.Nat.Digits.Defs

namespace Praxis.Grpc

open Char List Nat

/-- Largest value that eight digits can write. -/
def MAX_ENCODABLE : Nat := 99999999

def MAX_TIMEOUT_DIGITS : Nat := 8

inductive GrpcTimeoutUnit where
  | hour
  | minute
  | second
  | millisecond
  | microsecond
  | nanosecond
deriving Repr, DecidableEq

/-- The suffix on the wire. -/
def GrpcTimeoutUnit.asStr : GrpcTimeoutUnit → Char
  | .hour => 'H'
  | .minute => 'M'
  | .second => 'S'
  | .millisecond => 'm'
  | .microsecond => 'u'
  | .nanosecond => 'n'

/-- Nanoseconds in each unit, finest first. -/
def UNIT_SCALES : List (Nat × GrpcTimeoutUnit) :=
  [(1, .nanosecond), (1000, .microsecond), (1000000, .millisecond), (1000000000, .second), (60000000000, .minute),
    (3600000000000, .hour)]

inductive GrpcTimeoutParseError where
  | empty
  | missingDigits
  | nonDigit
  | tooManyDigits (got : Nat)
  | unknownUnit (unit : Char)
  | zero
deriving Repr, DecidableEq

structure GrpcTimeout where
  unit : GrpcTimeoutUnit
  value : Nat
deriving Repr, DecidableEq

namespace GrpcTimeout

/-- The unit of the last byte. -/
def parseUnit (unitByte : UInt8) : Except GrpcTimeoutParseError GrpcTimeoutUnit :=
  match ofUInt8 unitByte with
  | 'H' => .ok .hour
  | 'M' => .ok .minute
  | 'S' => .ok .second
  | 'm' => .ok .millisecond
  | 'u' => .ok .microsecond
  | 'n' => .ok .nanosecond
  | other => .error (.unknownUnit other)

def parse (input : List UInt8) : Except GrpcTimeoutParseError GrpcTimeout :=
  match input.getLast? with
  | none => .error .empty
  | some unitByte => do
    let unit ← parseUnit unitByte
    let text := input.dropLast.map ofUInt8
    if text = [] then .error .missingDigits
    else if text.length > MAX_TIMEOUT_DIGITS then .error (.tooManyDigits text.length)
    else if !text.all isDigit then .error .nonDigit
    else
      let value := ofDigitChars 10 text 0
      if value = 0 then .error .zero else .ok { unit, value }

/-- `saturating_mul` of two `u64`. -/
def saturatingMul (a b : Nat) : Nat := min (a * b) (2 ^ 64 - 1)

def asDuration (timeout : GrpcTimeout) : Nat :=
  match timeout.unit with
  | .hour => saturatingMul timeout.value 3600 * 1000000000
  | .minute => saturatingMul timeout.value 60 * 1000000000
  | .second => timeout.value * 1000000000
  | .millisecond => timeout.value * 1000000
  | .microsecond => timeout.value * 1000
  | .nanosecond => timeout.value

/-- `format!` of a value and its unit. -/
def format (value : Nat) (unit : GrpcTimeoutUnit) : List UInt8 :=
  (toDigits 10 value ++ [unit.asStr]).map Char.toUInt8

def encode (remaining : Nat) : List UInt8 :=
  let nanos := min remaining (2 ^ 64 - 1)
  let exact := UNIT_SCALES.reverse.findSome? fun (scale, unit) =>
    let value := nanos / scale
    if nanos % scale = 0 ∧ 1 ≤ value ∧ value ≤ MAX_ENCODABLE then some (format value unit) else none
  let fitting := UNIT_SCALES.findSome? fun (scale, unit) =>
    let value := nanos / scale
    if value ≤ MAX_ENCODABLE then some (format (max value 1) unit) else none
  (exact.or fitting).getD (format MAX_ENCODABLE .hour)

/-! ## Reading what was written -/

theorem ofUInt8_digit {c : Char} (h : c.isDigit = true) : ofUInt8 c.toUInt8 = c := by
  simp only [isDigit, Bool.and_eq_true, decide_eq_true_eq] at h
  have hle : c.val.toNat ≤ 57 := UInt32.le_iff_toNat_le.1 h.2
  apply ext
  apply UInt32.toNat_inj.1
  change c.val.toUInt8.toUInt32.toNat = c.val.toNat
  simp only [UInt8.toNat_toUInt32, UInt32.toNat_toUInt8]
  omega

variable {value scale nanos : Nat} {unit : GrpcTimeoutUnit}

/-- What is written with up to eight digits is read back. -/
theorem parse_format (hpos : 1 ≤ value) (hmax : value ≤ MAX_ENCODABLE) : parse (format value unit) = .ok ⟨unit, value⟩ := by
  have hunit : parseUnit unit.asStr.toUInt8 = .ok unit := by cases unit <;> rfl
  have hdigits : ∀ c ∈ Nat.toDigits 10 value, c.isDigit = true := fun c hc =>
    Nat.isDigit_of_mem_toDigits (by decide) (by decide) hc
  have htext : ((Nat.toDigits 10 value).map Char.toUInt8).map Char.ofUInt8 = Nat.toDigits 10 value := by
    rw [List.map_map]
    exact (List.map_congr_left fun c hc => ofUInt8_digit (hdigits c hc)).trans (List.map_id _)
  have hlen : (Nat.toDigits 10 value).length ≤ MAX_TIMEOUT_DIGITS :=
    (Nat.length_toDigits_le_iff (by decide) (by decide)).2 (Nat.lt_of_le_of_lt hmax (by decide))
  rw [format, List.map_append, List.map_singleton, parse, List.getLast?_concat]
  simp only [List.dropLast_concat, htext, hunit, Nat.toDigits_ne_nil, Nat.not_lt.2 hlen, List.all_eq_true.2 hdigits,
    Nat.ofDigitChars_ten_toDigits, Nat.ne_of_gt hpos]
  rfl

/-- A value of eight digits does not saturate. -/
theorem asDuration_eq (hunit : (scale, unit) ∈ UNIT_SCALES) (hmax : value ≤ MAX_ENCODABLE) :
    asDuration ⟨unit, value⟩ = value * scale := by
  rw [MAX_ENCODABLE] at hmax
  simp only [UNIT_SCALES, mem_cons, Prod.mk.injEq, not_mem_nil, or_false] at hunit
  rcases hunit with ⟨rfl, rfl⟩ | ⟨rfl, rfl⟩ | ⟨rfl, rfl⟩ | ⟨rfl, rfl⟩ | ⟨rfl, rfl⟩ | ⟨rfl, rfl⟩ <;>
    simp only [asDuration, saturatingMul] <;> omega

/-! ## Budgets -/

/-- A budget that no unit writes exactly is cut off in the first unit with room for it. -/
structure CutOff (nanos scale : Nat) : Prop where
  inexact : ∀ p ∈ UNIT_SCALES, nanos % p.1 = 0 → 1 ≤ nanos / p.1 → MAX_ENCODABLE < nanos / p.1
  finer : ∀ p ∈ UNIT_SCALES, p.1 < scale → MAX_ENCODABLE < nanos / p.1

theorem CutOff.pos (h : CutOff nanos scale) (hpos : 0 < nanos) (hunit : (scale, unit) ∈ UNIT_SCALES) : 1 ≤ nanos / scale := by
  have hnano := h.finer (1, .nanosecond) (by decide)
  have hmicro := h.finer (1000, .microsecond) (by decide)
  have hsecond := h.finer (1000000000, .second) (by decide)
  simp only [UNIT_SCALES, mem_cons, Prod.mk.injEq, not_mem_nil, or_false] at hunit
  simp only [MAX_ENCODABLE] at hnano hmicro hsecond
  rcases hunit with ⟨rfl, -⟩ | ⟨rfl, -⟩ | ⟨rfl, -⟩ | ⟨rfl, -⟩ | ⟨rfl, -⟩ | ⟨rfl, -⟩ <;> omega

/-- No eight digits lie between a budget of up to an hour and where it is cut off. -/
theorem CutOff.closest {scale' : Nat} {unit' : GrpcTimeoutUnit} (h : CutOff nanos scale)
    (hmax : nanos / scale ≤ MAX_ENCODABLE) (hunit : (scale, unit) ∈ UNIT_SCALES) (hunit' : (scale', unit') ∈ UNIT_SCALES)
    (hval : value ≤ MAX_ENCODABLE) (hhour : nanos ≤ 3600 * 10 ^ 9) :
    ¬ (nanos / scale * scale < value * scale' ∧ value * scale' < nanos) := by
  have hexact := h.inexact (1, .nanosecond) (by decide)
  have hnano := h.finer (1, .nanosecond) (by decide)
  have hmicro := h.finer (1000, .microsecond) (by decide)
  have hmilli := h.finer (1000000, .millisecond) (by decide)
  simp only [UNIT_SCALES, mem_cons, Prod.mk.injEq, not_mem_nil, or_false] at hunit hunit'
  simp only [MAX_ENCODABLE] at hexact hnano hmicro hmilli hmax hval
  rcases hunit with ⟨rfl, -⟩ | ⟨rfl, -⟩ | ⟨rfl, -⟩ | ⟨rfl, -⟩ | ⟨rfl, -⟩ | ⟨rfl, -⟩ <;>
    rcases hunit' with ⟨rfl, -⟩ | ⟨rfl, -⟩ | ⟨rfl, -⟩ | ⟨rfl, -⟩ | ⟨rfl, -⟩ | ⟨rfl, -⟩ <;> omega

theorem encode_spec (hpos : 0 < nanos) (hfits : nanos < 2 ^ 64) :
    ∃ scale unit, (scale, unit) ∈ UNIT_SCALES ∧ 1 ≤ nanos / scale ∧ nanos / scale ≤ MAX_ENCODABLE ∧
      encode nanos = format (nanos / scale) unit ∧ (nanos % scale = 0 ∨ CutOff nanos scale) := by
  have hmin : min nanos (2 ^ 64 - 1) = nanos := by omega
  rw [encode, hmin]
  simp only
  rcases hexact : UNIT_SCALES.reverse.findSome? _ with _ | text
  · rw [findSome?_eq_none_iff] at hexact
    rcases hfitting : UNIT_SCALES.findSome? _ with _ | text
    · -- the hours of 64 bits of nanoseconds have eight digits
      rw [findSome?_eq_none_iff] at hfitting
      have hhour := hfitting (3600000000000, .hour) (by decide)
      rw [if_pos (by change nanos / 3600000000000 ≤ 99999999; omega)] at hhour
      cases hhour
    · obtain ⟨before, ⟨scale, unit⟩, after, hsplit, htext, hbefore⟩ := findSome?_eq_some_iff.1 hfitting
      have hsorted : (before ++ (scale, unit) :: after).Pairwise fun p q => p.1 < q.1 := hsplit ▸ by decide
      have hunit : (scale, unit) ∈ UNIT_SCALES := hsplit ▸ by simp
      have hcut : CutOff nanos scale := by
        constructor
        · intro p hp hzero hone
          have hnone := hexact p (mem_reverse.2 hp)
          by_contra hle
          rw [if_pos ⟨hzero, hone, not_lt.1 hle⟩] at hnone
          cases hnone
        · intro p hp hlt
          rw [hsplit, mem_append, mem_cons] at hp
          rw [pairwise_append, pairwise_cons] at hsorted
          rcases hp with hp | rfl | hp
          · simpa using hbefore p hp
          · exact absurd hlt (lt_irrefl _)
          · exact absurd (hsorted.2.1.1 p hp) (lt_asymm hlt)
      simp only [Option.ite_none_right_eq_some, Option.some.injEq] at htext
      have hone := hcut.pos hpos hunit
      exact ⟨scale, unit, hunit, hone, htext.1, by rw [← htext.2, max_eq_left hone]; rfl, .inr hcut⟩
  · obtain ⟨⟨scale, unit⟩, hmem, htext⟩ := exists_of_findSome?_eq_some hexact
    simp only [Option.ite_none_right_eq_some, Option.some.injEq] at htext
    obtain ⟨⟨hzero, hone, hmax⟩, rfl⟩ := htext
    exact ⟨scale, unit, mem_reverse.1 hmem, hone, hmax, rfl, .inl hzero⟩

/-- What is read back is not later than the budget, is the budget where eight digits can write it,
and up to an hour is the closest that they can write. -/
theorem encode_never_extends {nanos : Nat} (hpos : 0 < nanos) (hfits : nanos < 2 ^ 64) :
    ∃ timeout, parse (encode nanos) = .ok timeout ∧ timeout.asDuration ≤ nanos ∧
      ((∃ other : GrpcTimeout, other.value ≤ MAX_ENCODABLE ∧ other.asDuration = nanos) → timeout.asDuration = nanos) ∧
      (nanos ≤ 3600 * 10 ^ 9 → ∀ other : GrpcTimeout, other.value ≤ MAX_ENCODABLE →
        ¬ (timeout.asDuration < other.asDuration ∧ other.asDuration < nanos)) := by
  obtain ⟨scale, unit, hunit, hone, hmax, htext, hwritten⟩ := encode_spec hpos hfits
  have hscale : ∀ other : GrpcTimeout, ∃ scale', (scale', other.unit) ∈ UNIT_SCALES := by
    rintro ⟨unit', -⟩
    cases unit' <;> simp [UNIT_SCALES]
  have hread : asDuration ⟨unit, nanos / scale⟩ = nanos / scale * scale := asDuration_eq hunit hmax
  refine ⟨⟨unit, nanos / scale⟩, by rw [htext, parse_format hone hmax], hread ▸ Nat.div_mul_le_self .., ?_, ?_⟩
  · rintro ⟨other, hval, hother⟩
    rw [hread]
    rcases hwritten with hzero | hcut
    · exact Nat.div_mul_cancel (Nat.dvd_of_mod_eq_zero hzero)
    · -- then some unit would have written it exactly
      obtain ⟨scale', hunit'⟩ := hscale other
      rw [asDuration_eq hunit' hval] at hother
      have hpos' : 0 < scale' := Nat.pos_of_ne_zero (by rintro rfl; omega)
      have hdiv : nanos / scale' = other.value := by rw [← hother, Nat.mul_div_cancel _ hpos']
      have hlarge := hcut.inexact _ hunit' (by rw [← hother, Nat.mul_mod_left])
      rw [hdiv] at hlarge
      have hzero : other.value = 0 := by omega
      rw [hzero] at hother
      omega
  · intro hhour other hval
    obtain ⟨scale', hunit'⟩ := hscale other
    rw [hread, asDuration_eq hunit' hval]
    rcases hwritten with hzero | hcut
    · rw [Nat.div_mul_cancel (Nat.dvd_of_mod_eq_zero hzero)]
      omega
    · exact hcut.closest hmax hunit hunit' hval hhour

/-- 100 s and one nanosecond are cut off to whole milliseconds. -/
theorem encode_cut_off : ∃ timeout, parse (encode 100000000001) = .ok timeout ∧ timeout.asDuration ≤ 100000000001 := by
  obtain ⟨timeout, hparse, hle, -⟩ := @encode_never_extends 100000000001 (by decide) (by decide)
  exact ⟨timeout, hparse, hle⟩

end GrpcTimeout

end Praxis.Grpc
