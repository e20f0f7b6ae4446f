/-
Client addresses: how they are written and when they lie in a CIDR range. An IPv4-mapped IPv6
address counts as IPv4 where ranges are matched.
-/
import Praxis.Lib.Http
import Mathlib.Algebra.Ring.Nat

namespace Praxis.Headers

open Nat Praxis.Lib

/-! ## Addresses as text -/

inductive IpAddr where
  | v4 (addr : BitVec 32)
  | v6 (addr : BitVec 128)
deriving Repr, DecidableEq

def toIpv4Mapped (addr : BitVec 128) : Option (BitVec 32) :=
  if addr >>> 32 = 0xffff then some (addr.setWidth 32) else none

/-- The octets of an IPv4 address in dotted decimal. -/
def displayV4 (addr : BitVec 32) : List Char :=
  toDigits 10 (addr.toNat / 2 ^ 24) ++ '.' :: toDigits 10 (addr.toNat / 2 ^ 16 % 256) ++
    '.' :: toDigits 10 (addr.toNat / 2 ^ 8 % 256) ++ '.' :: toDigits 10 (addr.toNat % 256)

def segments (addr : BitVec 128) : List Nat := (List.range 8).map fun i => addr.toNat / 2 ^ (16 * (7 - i)) % 65536

/-- A run of segments that are zero. -/
structure Span where
  start : Nat
  len : Nat

/-- The longest run of zero segments, the first of that length. -/
def zeroes : Nat → Span → Span → List Nat → Span
  | _, longest, _, [] => longest
  | i, longest, cur, seg :: rest =>
    if seg = 0 then
      let cur := ⟨if cur.len = 0 then i else cur.start, cur.len + 1⟩
      zeroes (i + 1) (if longest.len < cur.len then cur else longest) cur rest
    else zeroes (i + 1) longest ⟨0, 0⟩ rest

/-- `fmt_subslice`: hexadecimal segments between colons. -/
def fmtSubslice : List Nat → List Char
  | [] => []
  | [seg] => toDigits 16 seg
  | seg :: rest => toDigits 16 seg ++ ':' :: fmtSubslice rest

/-- The text of an IPv6 address. -/
def displayV6 (addr : BitVec 128) : List Char :=
  match toIpv4Mapped addr with
  | some mapped => "::ffff:".toList ++ displayV4 mapped
  | none =>
    let span := zeroes 0 ⟨0, 0⟩ ⟨0, 0⟩ (segments addr)
    if 1 < span.len then
      fmtSubslice ((segments addr).take span.start) ++ ':' :: ':' :: fmtSubslice ((segments addr).drop (span.start + span.len))
    else fmtSubslice (segments addr)

def IpAddr.display : IpAddr → List Char
  | .v4 addr => displayV4 addr
  | .v6 addr => displayV6 addr

example : IpAddr.display (.v6 0x20010db8000000000000000000000001) = "2001:db8::1".toList := by decide

theorem isVisible_digitChar (n : Nat) : isVisible n.digitChar := by
  by_cases hn : n < 16
  · have hall : ∀ m : Fin 16, isVisible (digitChar m) := by decide
    exact hall ⟨n, hn⟩
  · have hstar : n.digitChar = '*' := by
      unfold digitChar
      repeat rw [if_neg (by omega)]
    rw [hstar]
    rfl

theorem visible_toDigitsCore (base fuel n : Nat) {digits : List Char} (h : Visible digits) :
    Visible (toDigitsCore base fuel n digits) := by
  induction fuel generalizing n digits with
  | zero => exact h
  | succ fuel ih =>
    have hcons : Visible ((n % base).digitChar :: digits) := visible_cons.2 ⟨isVisible_digitChar _, h⟩
    rw [toDigitsCore]
    split
    · exact hcons
    · exact ih _ hcons

@[simp] theorem visible_toDigits (base n : Nat) : Visible (toDigits base n) :=
  visible_toDigitsCore base (n + 1) n visible_nil

theorem visible_displayV4 (addr : BitVec 32) : Visible (displayV4 addr) := by
  have hdot : isVisible '.' = true := rfl
  simp [displayV4, hdot]

theorem visible_fmtSubslice (segments : List Nat) : Visible (fmtSubslice segments) := by
  have hcolon : isVisible ':' = true := rfl
  fun_induction fmtSubslice segments with
  | case1 => exact visible_nil
  | case2 seg => exact visible_toDigits 16 seg
  | case3 seg rest _ ih => simp [hcolon, ih]

theorem visible_display (ip : IpAddr) : Visible ip.display := by
  have hcolon : isVisible ':' = true := rfl
  have hf : isVisible 'f' = true := rfl
  cases ip with
  | v4 addr => exact visible_displayV4 addr
  | v6 addr =>
    simp only [IpAddr.display, displayV6]
    split
    · simp [hcolon, hf, visible_displayV4]
    · split
      · simp [hcolon, visible_fmtSubslice]
      · exact visible_fmtSubslice _

/-! ## Ranges -/

/-- The number of bits of an address. -/
def IpAddr.width : IpAddr → Nat
  | .v4 _ => 32
  | .v6 _ => 128

/-- A parsed CIDR range; the parser refuses longer prefixes. -/
structure CidrRange where
  addr : IpAddr
  prefixLen : Nat
  prefixLen_le : prefixLen ≤ addr.width

/-- `v4_mask` and `v6_mask`. -/
def mask (w prefixLen : Nat) : BitVec w := if prefixLen = 0 then 0 else BitVec.allOnes w <<< (w - prefixLen)

/-- `v4_contains` and `v6_contains`. -/
def sharesPrefix {w : Nat} (net candidate : BitVec w) (prefixLen : Nat) : Bool :=
  net &&& mask w prefixLen == candidate &&& mask w prefixLen

def CidrRange.contains (range : CidrRange) (ip : IpAddr) : Bool :=
  if range.prefixLen = 0 then true
  else
    match range.addr, ip with
    | .v4 net, .v4 candidate => sharesPrefix net candidate range.prefixLen
    | .v6 net, .v6 candidate => sharesPrefix net candidate range.prefixLen
    | .v4 net, .v6 candidate => (toIpv4Mapped candidate).any fun mapped => sharesPrefix net mapped range.prefixLen
    | .v6 net, .v4 candidate =>
      ((toIpv4Mapped net).filter fun _ => 96 ≤ range.prefixLen).any fun mapped =>
        sharesPrefix mapped candidate (range.prefixLen - 96)

def CidrRange.containsSameFamily (range : CidrRange) (ip : IpAddr) : Bool :=
  let candidateIsV4 := match ip with
    | .v4 _ => true
    | .v6 addr => (toIpv4Mapped addr).isSome
  let rangeIsV4 := match range.addr with
    | .v4 _ => true
    | .v6 addr => (toIpv4Mapped addr).isSome && 96 ≤ range.prefixLen
  candidateIsV4 == rangeIsV4 && range.contains ip

/-! ## What a range contains -/

theorem getLsbD_mask (w prefixLen i : Nat) :
    (mask w prefixLen).getLsbD i = (decide (i < w) && decide (w - prefixLen ≤ i)) := by
  unfold mask
  split <;> rw [Bool.eq_iff_iff]
  · simp
    omega
  · simp [BitVec.getLsbD_shiftLeft]
    omega

variable {w prefixLen : Nat} {net candidate : BitVec w}

/-- The prefix of an address is its bits from `w - prefixLen` on. -/
theorem sharesPrefix_iff : sharesPrefix net candidate prefixLen = true ↔
    ∀ i, w - prefixLen ≤ i → net.getLsbD i = candidate.getLsbD i := by
  rw [sharesPrefix, beq_iff_eq]
  constructor
  · intro heq i hi
    by_cases hw : i < w
    · have hbit := congrArg (·.getLsbD i) heq
      simpa only [BitVec.getLsbD_and, getLsbD_mask, hw, hi, decide_true, Bool.and_true] using hbit
    · rw [BitVec.getLsbD_of_ge _ _ (Nat.le_of_not_lt hw), BitVec.getLsbD_of_ge _ _ (Nat.le_of_not_lt hw)]
  · intro hbits
    refine BitVec.eq_of_getLsbD_eq fun i hw => ?_
    rw [BitVec.getLsbD_and, BitVec.getLsbD_and, getLsbD_mask]
    by_cases hi : w - prefixLen ≤ i
    · rw [hbits i hi]
    · simp [hi]

/-- The IPv4-mapped form of an IPv4 address. -/
def toIpv6Mapped (addr : BitVec 32) : BitVec 128 := (0xffff : BitVec 96) ++ addr

theorem getLsbD_toIpv6Mapped {addr : BitVec 32} (i : Nat) :
    (toIpv6Mapped addr).getLsbD i = if i < 32 then addr.getLsbD i else (0xffff : BitVec 96).getLsbD (i - 32) := by
  rw [toIpv6Mapped, BitVec.getLsbD_append]

theorem toIpv4Mapped_eq_some {addr : BitVec 128} {mapped : BitVec 32} :
    toIpv4Mapped addr = some mapped ↔ addr = toIpv6Mapped mapped := by
  have hwiden : (0xffff : BitVec 128) = (0xffff : BitVec 96).setWidth 128 := rfl
  unfold toIpv4Mapped
  constructor
  · split
    · rename_i hblock
      rintro ⟨⟩
      refine BitVec.eq_of_getLsbD_eq fun i hi => ?_
      rw [getLsbD_toIpv6Mapped]
      split
      · rename_i hlow
        simp [hlow]
      · rename_i hhigh
        have hbit := congrArg (·.getLsbD (i - 32)) hblock
        simp only [BitVec.getLsbD_ushiftRight, hwiden, BitVec.getLsbD_setWidth] at hbit
        rw [Nat.add_sub_cancel' (by omega)] at hbit
        rw [hbit, decide_eq_true (by omega), Bool.true_and]
    · rintro ⟨⟩
  · rintro rfl
    rw [if_pos]
    · congr 1
      refine BitVec.eq_of_getLsbD_eq fun i hi => ?_
      rw [BitVec.getLsbD_setWidth, getLsbD_toIpv6Mapped, if_pos hi, decide_eq_true hi, Bool.true_and]
    · refine BitVec.eq_of_getLsbD_eq fun i hi => ?_
      rw [BitVec.getLsbD_ushiftRight, getLsbD_toIpv6Mapped, if_neg (by omega), hwiden, BitVec.getLsbD_setWidth,
        decide_eq_true hi, Bool.true_and, Nat.add_sub_cancel_left]

theorem sharesPrefix_mono {shorter : Nat} (hle : shorter ≤ prefixLen) (h : sharesPrefix net candidate prefixLen = true) :
    sharesPrefix net candidate shorter = true :=
  sharesPrefix_iff.2 fun i hi => sharesPrefix_iff.1 h i (by omega)

/-- A prefix that ends in the block of IPv4-mapped addresses does not tell them apart. -/
theorem sharesPrefix_block {net : BitVec 128} (candidate : BitVec 32) (h : prefixLen ≤ 96) :
    sharesPrefix net (toIpv6Mapped candidate) prefixLen = sharesPrefix net (toIpv6Mapped 0) prefixLen := by
  rw [Bool.eq_iff_iff, sharesPrefix_iff, sharesPrefix_iff]
  refine forall₂_congr fun i hi => ?_
  rw [getLsbD_toIpv6Mapped, getLsbD_toIpv6Mapped, if_neg (by omega), if_neg (by omega)]

/-- An IPv6 range with a mapped base and a prefix of at least 96 bits holds the mapped form of what the IPv4
range of the remaining prefix holds. -/
theorem sharesPrefix_mapped {net : BitVec 128} {candidate : BitVec 32} (h : 96 ≤ prefixLen) (hle : prefixLen ≤ 128) :
    sharesPrefix net (toIpv6Mapped candidate) prefixLen =
      (toIpv4Mapped net).any fun mapped => sharesPrefix mapped candidate (prefixLen - 96) := by
  rw [Bool.eq_iff_iff, Option.any_eq_true, sharesPrefix_iff]
  constructor
  · intro hbits
    refine ⟨net.setWidth 32, toIpv4Mapped_eq_some.2 (BitVec.eq_of_getLsbD_eq fun i hi => ?_), sharesPrefix_iff.2 fun i hi => ?_⟩
    · rw [getLsbD_toIpv6Mapped]
      split
      · rename_i hlow
        simp [hlow]
      · rename_i hhigh
        rw [hbits i (by omega), getLsbD_toIpv6Mapped, if_neg hhigh]
    · by_cases hlow : i < 32
      · have hbit := hbits i (by omega)
        rw [getLsbD_toIpv6Mapped, if_pos hlow] at hbit
        simp [hlow, hbit]
      · rw [BitVec.getLsbD_of_ge _ _ (Nat.le_of_not_lt hlow), BitVec.getLsbD_of_ge _ _ (Nat.le_of_not_lt hlow)]
  · rintro ⟨mapped, hnet, hshares⟩ i hi
    rw [toIpv4Mapped_eq_some.1 hnet, getLsbD_toIpv6Mapped, getLsbD_toIpv6Mapped]
    split
    · exact sharesPrefix_iff.1 hshares i (by omega)
    · rfl

/-- The IPv6 ranges that are wider than the block of IPv4-mapped addresses and cover it. -/
def CidrRange.coversMapped (range : CidrRange) : Bool :=
  match range.addr with
  | .v4 _ => false
  | .v6 net => 0 < range.prefixLen && range.prefixLen < 96 && sharesPrefix net (toIpv6Mapped 0) range.prefixLen

theorem CidrRange.contains_mapped_iff (range : CidrRange) (addr : BitVec 32) :
    range.contains (.v4 addr) = range.contains (.v6 (toIpv6Mapped addr)) ↔ range.coversMapped = false := by
  obtain ⟨base, prefixLen, hle⟩ := range
  unfold contains coversMapped
  dsimp only
  split
  · cases base <;> simp_all
  · rename_i hpos
    cases base with
    | v4 net => simp [toIpv4Mapped_eq_some.2 rfl]
    | v6 net =>
      by_cases hlong : 96 ≤ prefixLen
      · simp [sharesPrefix_mapped hlong hle, hlong, Nat.not_lt.2 hlong]
      · simp [sharesPrefix_block addr (Nat.le_of_not_le hlong), hlong, Nat.pos_of_ne_zero hpos, Nat.lt_of_not_le hlong]

/-- A range contains an IPv4 address and its mapped form alike, unless it is a wider IPv6 range, which only
contains the mapped form. Of one base, the shorter prefix contains what the longer one does, unless it is an
IPv6 prefix of less than 96 bits, which contains no plain IPv4 address. -/
theorem CidrRange.contains_families (range : CidrRange) :
    (∀ addr, range.contains (.v4 addr) = range.contains (.v6 (toIpv6Mapped addr)) ↔ range.coversMapped = false) ∧
    ∀ shorter : CidrRange, shorter.addr = range.addr → shorter.prefixLen ≤ range.prefixLen → ∀ ip, range.contains ip = true →
      (shorter.contains ip = true ↔ ¬ ∃ net addr, range.addr = .v6 net ∧ ip = .v4 addr ∧
        0 < shorter.prefixLen ∧ shorter.prefixLen < 96) := by
  refine ⟨range.contains_mapped_iff, fun shorter hbase hle ip h => ?_⟩
  obtain ⟨base, short, hshort⟩ := shorter
  obtain ⟨addr, prefixLen, hlong⟩ := range
  obtain rfl : base = addr := hbase
  change short ≤ prefixLen at hle
  unfold contains at h ⊢
  dsimp only at h ⊢
  rcases Nat.eq_zero_or_pos short with rfl | hpos
  · simp
  rw [if_neg (by omega)] at h ⊢
  rcases base with net | net <;> rcases ip with candidate | candidate
  · simpa using sharesPrefix_mono hle h
  · simp only [Option.any_eq_true] at h ⊢
    obtain ⟨mapped, hmapped, h⟩ := h
    simpa using ⟨mapped, hmapped, sharesPrefix_mono hle h⟩
  · simp only [Option.any_eq_true, Option.filter_eq_some_iff] at h ⊢
    obtain ⟨mapped, ⟨hmapped, -⟩, h⟩ := h
    by_cases hwide : short < 96
    · simp [hpos, hwide, not_le.2 hwide]
    · simpa [hpos, hwide, hmapped] using ⟨by omega, sharesPrefix_mono (by omega) h⟩
  · simpa using sharesPrefix_mono hle h

/-- `::/8` contains `::ffff:10.0.0.1` and not `10.0.0.1`; `::ffff:0.0.0.0/96` contains `10.0.0.1`, and `/64` of that
base does not. -/
theorem wide_v6_range_excludes_v4 :
    CidrRange.contains ⟨.v6 0, 8, by decide⟩ (.v6 (toIpv6Mapped 0x0a000001)) = true ∧
    CidrRange.contains ⟨.v6 0, 8, by decide⟩ (.v4 0x0a000001) = false ∧
    CidrRange.contains ⟨.v6 (toIpv6Mapped 0), 96, by decide⟩ (.v4 0x0a000001) = true ∧
    CidrRange.contains ⟨.v6 (toIpv6Mapped 0), 64, by decide⟩ (.v4 0x0a000001) = false := by
  decide

/-- `10.0.0.0/16` and `10.0.0.0/8` of both families. -/
theorem private_range_families :
    CidrRange.contains ⟨.v4 0x0a000000, 16, by decide⟩ (.v6 (toIpv6Mapped 0x0a000001)) = true ∧
    CidrRange.contains ⟨.v4 0x0a000000, 8, by decide⟩ (.v6 (toIpv6Mapped 0x0a000001)) = true := by
  have hlong : CidrRange.contains ⟨.v4 0x0a000000, 16, by decide⟩ (.v6 (toIpv6Mapped 0x0a000001)) = true := by decide
  refine ⟨hlong, ((CidrRange.contains_families ⟨.v4 0x0a000000, 16, by decide⟩).2 ⟨.v4 0x0a000000, 8, by decide⟩ rfl (by decide)
    _ hlong).2 ?_⟩
  rintro ⟨net, addr, ⟨⟩, -⟩

end Praxis.Headers
