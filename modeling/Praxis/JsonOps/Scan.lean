/-
The scan for the end of the plain part of a JSON string. On x86-64 it classifies sixteen bytes at a
time with vector instructions, which are modelled by what they do in each lane. It finds what the
scan byte by byte finds. Slices are shorter than `isize::MAX`, so offsets do not overflow.
-/
import Mathlib.Data.List.GetD
import Mathlib.Data.List.OfFn
import Praxis.JsonOps.Skip

namespace Praxis.JsonOps

open List Praxis.Lib.Json

def lane : Nat := 16

/-- A register of sixteen unsigned bytes. -/
abbrev M128i := Fin lane → UInt8

def mmSet1Epi8 (b : UInt8) : M128i := fun _ => b

def mmLoaduSi128 (haystack : List UInt8) (offset : Nat) : M128i := fun i => haystack.getD (offset + i) 0

def mmCmpeqEpi8 (a b : M128i) : M128i := fun i => if a i = b i then 0xFF else 0

/-- Subtraction that saturates at zero. -/
def mmSubsEpu8 (a b : M128i) : M128i := fun i => if a i ≤ b i then 0 else a i - b i

def mmOrSi128 (a b : M128i) : M128i := fun i => a i ||| b i

/-- The top bits of the bytes, the first byte's as the lowest bit. -/
def topBits : List UInt8 → Nat
  | [] => 0
  | b :: rest => b.toNat / 128 + 2 * topBits rest

def mmMovemaskEpi8 (a : M128i) : Nat := topBits (ofFn a)

def classify (chunk vQuote vBackslash vCtrlMax vZero : M128i) : Nat :=
  let mQuote := mmCmpeqEpi8 chunk vQuote
  let mBackslash := mmCmpeqEpi8 chunk vBackslash
  let mControl := mmCmpeqEpi8 (mmSubsEpu8 chunk vCtrlMax) vZero
  mmMovemaskEpi8 (mmOrSi128 (mmOrSi128 mQuote mBackslash) mControl)

/-- `trailing_zeros` of a word with that many bits. -/
def trailingZeros : Nat → Nat → Nat
  | 0, _ => 0
  | bits + 1, word => if word % 2 = 1 then 0 else trailingZeros bits (word / 2) + 1

/-- The loop of `find_inner` at an offset. -/
def findInner (haystack : List UInt8) (offset : Nat) : Option Nat :=
  if offset + lane ≤ haystack.length then
    let chunk := mmLoaduSi128 haystack offset
    let mask := classify chunk (mmSet1Epi8 0x22) (mmSet1Epi8 0x5C) (mmSet1Epi8 0x1F) (mmSet1Epi8 0)
    if mask ≠ 0 then some (offset + trailingZeros 32 mask) else findInner haystack (offset + lane)
  else (findJsonStringDelim (haystack.drop offset)).map (offset + ·)
termination_by haystack.length - offset
decreasing_by unfold lane at *; omega

/-- `x86_64::find`. -/
def x86Find (haystack : List UInt8) : Option Nat :=
  if haystack.length < lane then findJsonStringDelim haystack else findInner haystack 0

/-! ## The two agree -/

def isStringDelim (b : UInt8) : Bool := b == QUOTE || b == BACKSLASH || b < 0x20

theorem findJsonStringDelim_eq (bytes : List UInt8) : findJsonStringDelim bytes = bytes.findIdx? isStringDelim := rfl

/-- What `classify` does in one lane. -/
def classifyLane (b : UInt8) : UInt8 :=
  (if b = 0x22 then 0xFF else 0) ||| (if b = 0x5C then 0xFF else 0) |||
    if (if b ≤ 0x1F then 0 else b - 0x1F) = 0 then 0xFF else 0

theorem classifyLane_top (b : UInt8) : (classifyLane b).toNat / 128 = (isStringDelim b).toNat := by
  have hall : ∀ n < 256, (classifyLane (.ofNat n)).toNat / 128 = (isStringDelim (.ofNat n)).toNat := by decide +kernel
  simpa using hall b.toNat b.toNat_lt

/-- The lowest bit of the mask is at the first delimiter. -/
theorem findIdx?_topBits (bytes : List UInt8) {bits : Nat} (hbits : bytes.length ≤ bits) : findJsonStringDelim bytes =
    if topBits (bytes.map classifyLane) = 0 then none else some (trailingZeros bits (topBits (bytes.map classifyLane))) := by
  induction bytes generalizing bits with
  | nil => rfl
  | cons b rest ih =>
    obtain ⟨bits, rfl⟩ : ∃ n, bits = n + 1 := Nat.exists_eq_add_one.2 (Nat.zero_lt_of_lt hbits)
    have hrest := ih (Nat.le_of_succ_le_succ hbits)
    rw [findJsonStringDelim_eq] at hrest
    rw [findJsonStringDelim_eq, findIdx?_cons, hrest, map_cons, topBits, classifyLane_top, trailingZeros]
    -- the word is its lowest bit and twice the rest, as the bytes are the first one and the rest
    cases isStringDelim b with
    | true => rw [if_pos rfl, if_neg (by simp), if_pos (by simp)]
    | false =>
      by_cases hzero : topBits (rest.map classifyLane) = 0
      · simp [hzero]
      · rw [if_neg hzero, if_neg Bool.false_ne_true, Bool.toNat_false, Nat.zero_add, if_neg (by omega)]
        simp

/-- What is left of the input is the next chunk and what comes after it. -/
theorem drop_eq_chunk {haystack : List UInt8} {offset : Nat} (hle : offset + lane ≤ haystack.length) :
    haystack.drop offset = ofFn (mmLoaduSi128 haystack offset) ++ haystack.drop (offset + lane) := by
  have hchunk : ofFn (mmLoaduSi128 haystack offset) = (haystack.drop offset).take lane := by
    refine ext_getElem (by simp; omega) fun i hi hi' => ?_
    rw [length_ofFn] at hi
    rw [List.getElem_ofFn, getElem_take, getElem_drop]
    exact getD_eq_getElem _ _ (by omega)
  rw [hchunk, ← drop_drop, take_append_drop]

theorem delim_append (xs ys : List UInt8) :
    findJsonStringDelim (xs ++ ys) = (findJsonStringDelim xs).or ((findJsonStringDelim ys).map (· + xs.length)) := findIdx?_append

theorem delim_chunk (chunk : M128i) :
    let mask := classify chunk (mmSet1Epi8 0x22) (mmSet1Epi8 0x5C) (mmSet1Epi8 0x1F) (mmSet1Epi8 0)
    findJsonStringDelim (ofFn chunk) = if mask = 0 then none else some (trailingZeros 32 mask) := by
  have hlength : (ofFn chunk).length ≤ 32 := by rw [length_ofFn]; decide
  have hfind := findIdx?_topBits (ofFn chunk) hlength
  rwa [map_ofFn] at hfind

theorem findInner_eq (haystack : List UInt8) (offset : Nat) :
    findInner haystack offset = (findJsonStringDelim (haystack.drop offset)).map (offset + ·) := by
  fun_induction findInner haystack offset with
  | case1 offset hle chunk mask hmask =>
    have hchunk : findJsonStringDelim (ofFn (mmLoaduSi128 haystack offset)) = some (trailingZeros 32 mask) :=
      (delim_chunk chunk).trans (if_neg hmask)
    rw [drop_eq_chunk hle, delim_append, hchunk]
    rfl
  | case2 offset hle chunk mask hmask ih =>
    have hchunk : findJsonStringDelim (ofFn (mmLoaduSi128 haystack offset)) = none :=
      (delim_chunk chunk).trans (if_pos (not_not.1 hmask))
    rw [ih, drop_eq_chunk hle, delim_append, hchunk, Option.none_or, Option.map_map, length_ofFn]
    refine congrArg (Option.map · _) (funext fun i => ?_)
    rw [Function.comp_apply, Nat.add_comm i, Nat.add_assoc]
  | case3 offset hle => rfl

/-- The vector scan returns what the scan byte by byte returns. -/
theorem x86Find_eq (haystack : List UInt8) : x86Find haystack = findJsonStringDelim haystack := by
  unfold x86Find
  split
  · rfl
  · rw [findInner_eq, drop_zero]
    simp

end Praxis.JsonOps
