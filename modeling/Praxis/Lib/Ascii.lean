/-
Bytes read as ASCII text, as Rust's `u8` and `[u8]` do it: whitespace, trimming, and comparison
without regard to case.
-/
import Mathlib.Data.List.Basic

namespace Praxis.Lib

open List

def COLON : UInt8 := 58

/-- The byte order mark of UTF-8. -/
def BOM : List UInt8 := [0xEF, 0xBB, 0xBF]

def isAsciiWhitespace (b : UInt8) : Bool := b == 32 || b == 9 || b == 10 || b == 12 || b == 13

def toAsciiLowercase (b : UInt8) : UInt8 := if 65 ≤ b && b ≤ 90 then b + 32 else b

/-- `eq_ignore_ascii_case` of two slices. -/
def eqIgnoreAsciiCase (xs ys : List UInt8) : Bool := xs.map toAsciiLowercase == ys.map toAsciiLowercase

def trimAscii (bytes : List UInt8) : List UInt8 :=
  ((bytes.dropWhile isAsciiWhitespace).reverse.dropWhile isAsciiWhitespace).reverse

theorem trimAscii_split (bytes : List UInt8) :
    ∃ front back, bytes = front ++ trimAscii bytes ++ back ∧
      (∀ b ∈ front, isAsciiWhitespace b) ∧ ∀ b ∈ back, isAsciiWhitespace b := by
  refine ⟨bytes.takeWhile isAsciiWhitespace,
    ((bytes.dropWhile isAsciiWhitespace).reverse.takeWhile isAsciiWhitespace).reverse, ?_, ?_, ?_⟩
  · rw [trimAscii, append_assoc, ← reverse_append, takeWhile_append_dropWhile, reverse_reverse,
      takeWhile_append_dropWhile]
  · intro b hb
    exact all_eq_true.1 all_takeWhile b hb
  · intro b hb
    exact all_eq_true.1 all_takeWhile b (mem_reverse.1 hb)

theorem dropWhile_text_append {text : List UInt8} (htext : ∀ b ∈ text, isAsciiWhitespace b = false) (hne : text ≠ [])
    (tail : List UInt8) : (text ++ tail).dropWhile isAsciiWhitespace = text ++ tail := by
  obtain ⟨b, rest, rfl⟩ := exists_cons_of_ne_nil hne
  exact dropWhile_cons_of_neg (by simp [htext b mem_cons_self])

theorem trimAscii_between {front text back : List UInt8} (hfront : ∀ b ∈ front, isAsciiWhitespace b)
    (htext : ∀ b ∈ text, isAsciiWhitespace b = false) (hback : ∀ b ∈ back, isAsciiWhitespace b) :
    trimAscii (front ++ text ++ back) = text := by
  have hback' : ∀ b ∈ back.reverse, isAsciiWhitespace b := fun b hb => hback b (mem_reverse.1 hb)
  rw [trimAscii, append_assoc, dropWhile_append_of_pos hfront]
  rcases eq_or_ne text [] with rfl | hne
  · have hnil : (back ++ []).dropWhile isAsciiWhitespace = [].dropWhile isAsciiWhitespace := dropWhile_append_of_pos hback
    rw [append_nil] at hnil
    rw [nil_append, hnil]
    rfl
  · have hrev := dropWhile_text_append (fun b hb => htext b (mem_reverse.1 hb)) (reverse_ne_nil_iff.2 hne) []
    rw [append_nil] at hrev
    rw [dropWhile_text_append htext hne, reverse_append, dropWhile_append_of_pos hback', hrev, reverse_reverse]

/-- The tokens between the commas of a value, without the empty ones. -/
def tokens (value : List UInt8) : List (List UInt8) :=
  ((value.splitOnP (· == 44)).map trimAscii).filter fun token => !token.isEmpty

/-- Induction for a loop over bytes that goes on with the next byte, or behind two more. -/
theorem dropTwoInduction {motive : List UInt8 → Prop} (nil : motive [])
    (cons : ∀ b rest, motive rest → motive (rest.drop 2) → motive (b :: rest)) (bytes : List UInt8) : motive bytes := by
  induction hlen : bytes.length using Nat.strongRecOn generalizing bytes with
  | ind n ih =>
    subst hlen
    cases bytes with
    | nil => exact nil
    | cons b rest => exact cons b rest (ih _ (Nat.lt_succ_self _) _ rfl) (ih _ (Nat.lt_succ_of_le (drop_sublist 2 rest).length_le) _ rfl)

end Praxis.Lib
