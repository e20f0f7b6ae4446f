/-
Byte formats with numbers in big-endian order and fields that carry their length. Formats are written
by concatenation and read by offset; what a reader found stays when more bytes arrive.
-/
import Mathlib.Data.List.Basic

namespace Praxis.Lib.Wire

open UInt8 List

/-! ## Slices -/

/-- The bytes from `start` to `stop`, if they are all there. -/
def slice? (data : List UInt8) (start stop : Nat) : Option (List UInt8) :=
  if start ≤ stop ∧ stop ≤ data.length then some ((data.take stop).drop start) else none

variable {data found : List UInt8} {start stop : Nat}

theorem slice?_eq_some_iff : slice? data start stop = some found ↔
    (start ≤ stop ∧ stop ≤ data.length) ∧ (data.take stop).drop start = found := by
  unfold slice?
  split
  · simp_all
  · exact ⟨nofun, fun h => absurd h.1 (by assumption)⟩

theorem length_of_slice? (h : slice? data start stop = some found) :
    start ≤ stop ∧ stop ≤ data.length ∧ found.length = stop - start := by
  obtain ⟨⟨hle, hlen⟩, rfl⟩ := slice?_eq_some_iff.1 h
  refine ⟨hle, hlen, ?_⟩
  rw [length_drop, length_take, Nat.min_eq_left hlen]

theorem slice?_append (h : slice? data start stop = some found) (more : List UInt8) :
    slice? (data ++ more) start stop = some found := by
  obtain ⟨⟨hle, hlen⟩, rfl⟩ := slice?_eq_some_iff.1 h
  refine slice?_eq_some_iff.2 ⟨⟨hle, by rw [length_append]; omega⟩, ?_⟩
  rw [take_append_of_le_length hlen]

variable (before after : List UInt8)

/-- A slice between what stands before it and what stands after it. -/
theorem slice?_between (hdata : data = before ++ (found ++ after)) (hstart : start = before.length)
    (hstop : stop = start + found.length) : slice? data start stop = some found := by
  subst hdata hstart hstop
  refine slice?_eq_some_iff.2 ⟨⟨by omega, by simp⟩, ?_⟩
  rw [take_length_add_append, drop_left, take_left]

/-! ## Numbers -/

/-- A number of two bytes. -/
def be16 (n : Nat) : List UInt8 := [ofNat (n / 256), ofNat n]

/-- A number of three bytes. -/
def be24 (n : Nat) : List UInt8 := [ofNat (n / 65536), ofNat (n / 256), ofNat n]

/-- The two bytes at the offset as a number. -/
def nat16? (data : List UInt8) (offset : Nat) : Option Nat :=
  match data.drop offset with
  | high :: low :: _ => some (high.toNat * 256 + low.toNat)
  | _ => none

/-- The three bytes at the offset as a number. -/
def nat24? (data : List UInt8) (offset : Nat) : Option Nat :=
  match data.drop offset with
  | high :: mid :: low :: _ => some (high.toNat * 65536 + mid.toNat * 256 + low.toNat)
  | _ => none

@[simp] theorem length_be16 (n : Nat) : (be16 n).length = 2 := rfl

variable {n offset : Nat}

theorem nat16?_between (hdata : data = before ++ (be16 n ++ after)) (hoffset : offset = before.length) (hn : n < 65536) :
    nat16? data offset = some n := by
  subst hdata hoffset
  simp only [nat16?, drop_left, be16, cons_append, toNat_ofNat', Option.some.injEq]
  omega

theorem nat16?_drop (h : nat16? data offset = some n) : data.drop offset = be16 n ++ data.drop (offset + 2) ∧ n < 65536 := by
  rw [nat16?] at h
  split at h
  case h_2 => cases h
  case h_1 high low rest hdrop =>
    cases h
    have hhigh := high.toNat_lt
    have hlow := low.toNat_lt
    have hbytes : be16 (high.toNat * 256 + low.toNat) = [high, low] := by
      simp only [be16, cons.injEq, ← UInt8.toNat_inj, UInt8.toNat_ofNat', and_true]
      omega
    rw [← drop_drop, hdrop, hbytes]
    exact ⟨rfl, by omega⟩

theorem be16_inj {m : Nat} (hn : n < 65536) (hm : m < 65536) (h : be16 n = be16 m) : n = m := by
  simp only [be16, cons.injEq, ← UInt8.toNat_inj, UInt8.toNat_ofNat', and_true] at h
  omega

theorem nat24?_between (hdata : data = before ++ (be24 n ++ after)) (hoffset : offset = before.length) (hn : n < 16777216) :
    nat24? data offset = some n := by
  subst hdata hoffset
  simp only [nat24?, drop_left, be24, cons_append, toNat_ofNat', Option.some.injEq]
  omega

/-! ## Items back to back -/

/-- Where every item shows its own end, bytes are the encoding of one list of items only. -/
theorem flatMap_inj {ι : Type} {encode : ι → List UInt8} (hne : ∀ i, encode i ≠ [])
    (hinj : ∀ {i j xs ys}, encode i ++ xs = encode j ++ ys → i = j ∧ xs = ys) :
    ∀ {is js : List ι}, is.flatMap encode = js.flatMap encode → is = js
  | [], [], _ => rfl
  | [], j :: js, h => absurd (append_eq_nil_iff.1 h.symm).1 (hne j)
  | i :: is, [], h => absurd (append_eq_nil_iff.1 h).1 (hne i)
  | i :: is, j :: js, h => by
    obtain ⟨rfl, hrest⟩ := hinj h
    rw [flatMap_inj hne hinj hrest]

end Praxis.Lib.Wire
