/-
UTF-8 texts as lists of bytes. `fromUtf8` reads a text, `utf8` writes one. A byte below 128
always stands for a character of its own, so a text can be cut there.
-/
import Mathlib.Data.List.Basic

namespace Praxis.Lib

open List

/-- The text whose encoding the bytes are, if they are one. -/
def fromUtf8 (bytes : List UInt8) : Option String := String.fromUTF8? ⟨bytes.toArray⟩

/-- A condition on the bytes of a list is decided along the list, not over all bytes. -/
instance (priority := 2000) decidableForallBytes (bytes : List UInt8) (p : UInt8 → Prop) [DecidablePred p] : Decidable (∀ b ∈ bytes, p b) :=
  decidableBAll p bytes

instance (priority := 2000) decidableForallChars (cs : List Char) (p : Char → Prop) [DecidablePred p] : Decidable (∀ c ∈ cs, p c) :=
  decidableBAll p cs

/-- The bytes of a text. -/
def utf8 (s : String) : List UInt8 := s.toList.flatMap String.utf8EncodeChar

variable {bytes xs ys : List UInt8} {s : String}

theorem fromUtf8_eq_some_iff : fromUtf8 bytes = some s ↔ bytes = utf8 s := by
  have hutf8 : s.toByteArray = ⟨(utf8 s).toArray⟩ := by
    rw [← String.utf8Encode_toList]
    exact ByteArray.ext data_toByteArray
  have hlist : (⟨bytes.toArray⟩ : ByteArray) = s.toByteArray ↔ bytes = utf8 s := by
    rw [hutf8, ByteArray.mk.injEq]
    exact ⟨fun h => by simpa using congrArg Array.toList h, fun h => by rw [h]⟩
  rw [fromUtf8, String.fromUTF8?, ← hlist]
  constructor
  · intro h
    split at h
    · rw [← Option.some.inj h]
      rfl
    · cases h
  · intro h
    rw [dif_pos (h ▸ s.isValidUTF8)]
    exact congrArg some (String.toByteArray_inj.1 h)

@[simp] theorem fromUtf8_utf8 (s : String) : fromUtf8 (utf8 s) = some s := fromUtf8_eq_some_iff.2 rfl

theorem utf8_inj {t : String} (h : utf8 s = utf8 t) : s = t := by
  have hs := fromUtf8_utf8 s
  rw [h, fromUtf8_utf8] at hs
  exact (Option.some.inj hs).symm

theorem utf8_ofList (cs : List Char) : utf8 (String.ofList cs) = cs.flatMap String.utf8EncodeChar := by
  rw [utf8, String.toList_ofList]

/-- The bytes are a UTF-8 text. -/
def IsUtf8 (bytes : List UInt8) : Prop := ∃ s, fromUtf8 bytes = some s

instance (bytes : List UInt8) : Decidable (IsUtf8 bytes) :=
  decidable_of_iff ((fromUtf8 bytes).isSome = true) Option.isSome_iff_exists

theorem isUtf8_iff : IsUtf8 bytes ↔ ∃ cs : List Char, bytes = cs.flatMap String.utf8EncodeChar := by
  constructor
  · rintro ⟨s, hs⟩
    exact ⟨s.toList, fromUtf8_eq_some_iff.1 hs⟩
  · rintro ⟨cs, rfl⟩
    exact ⟨String.ofList cs, fromUtf8_eq_some_iff.2 (utf8_ofList cs).symm⟩

theorem isUtf8_nil : IsUtf8 [] := isUtf8_iff.2 ⟨[], rfl⟩

theorem IsUtf8.append (hx : IsUtf8 xs) (hy : IsUtf8 ys) : IsUtf8 (xs ++ ys) := by
  obtain ⟨cs, rfl⟩ := isUtf8_iff.1 hx
  obtain ⟨ds, rfl⟩ := isUtf8_iff.1 hy
  exact isUtf8_iff.2 ⟨cs ++ ds, flatMap_append.symm⟩

/-! ## Single characters -/

/-- A character is one byte below 128, or several bytes that are all above. -/
theorem utf8EncodeChar_cases (c : Char) :
    (c.val.toNat < 128 ∧ String.utf8EncodeChar c = [UInt8.ofNat c.val.toNat]) ∨
    (128 ≤ c.val.toNat ∧ ∀ b ∈ String.utf8EncodeChar c, 128 ≤ b) := by
  rw [String.utf8EncodeChar]
  by_cases h1 : c.val.toNat ≤ 127
  · exact .inl ⟨by omega, if_pos h1⟩
  · refine .inr ⟨by omega, ?_⟩
    have hhigh : ∀ n : Nat, 128 ≤ n → n < 256 → (128 : UInt8) ≤ UInt8.ofNat n := by
      intro n hlow hn
      rw [UInt8.le_iff_toNat_le, UInt8.toNat_ofNat_of_lt' (by simpa using hn)]
      exact hlow
    rw [if_neg h1]
    split
    · simp only [mem_cons, not_mem_nil, or_false, forall_eq_or_imp, forall_eq]
      exact ⟨hhigh _ (by omega) (by omega), hhigh _ (by omega) (by omega)⟩
    split
    · simp only [mem_cons, not_mem_nil, or_false, forall_eq_or_imp, forall_eq]
      exact ⟨hhigh _ (by omega) (by omega), hhigh _ (by omega) (by omega), hhigh _ (by omega) (by omega)⟩
    · simp only [mem_cons, not_mem_nil, or_false, forall_eq_or_imp, forall_eq]
      exact ⟨hhigh _ (by omega) (by omega), hhigh _ (by omega) (by omega), hhigh _ (by omega) (by omega),
        hhigh _ (by omega) (by omega)⟩

theorem utf8EncodeChar_ne_nil (c : Char) : String.utf8EncodeChar c ≠ [] := by
  intro h
  have := String.length_utf8EncodeChar c
  rw [h] at this
  have hpos := Char.utf8Size_pos c
  simp at this
  omega

/-! ## Bytes below 128 -/

/-- A text is cut at a byte below 128 into two texts. -/
theorem IsUtf8.split {b : UInt8} (h : IsUtf8 (xs ++ b :: ys)) (hb : b < 128) : IsUtf8 xs ∧ IsUtf8 ys := by
  obtain ⟨cs, hcs⟩ := isUtf8_iff.1 h
  -- induction on the characters: the first one lies in `xs`, or `xs` is empty and it is `b`
  induction cs generalizing xs with
  | nil => simp at hcs
  | cons c cs ih =>
    rw [flatMap_cons, append_eq_append_iff] at hcs
    rcases hcs with ⟨more, hc, hrest⟩ | ⟨more, rfl, hrest⟩
    · cases more with
      | nil =>
        rw [append_nil] at hc
        rw [nil_append] at hrest
        have hrest' : IsUtf8 ([] ++ b :: ys) := isUtf8_iff.2 ⟨cs, hrest⟩
        have hxs : IsUtf8 xs := isUtf8_iff.2 ⟨[c], by simpa using hc.symm⟩
        exact ⟨hxs, (ih hrest' hrest).2⟩
      | cons b' more =>
        obtain ⟨rfl, rfl⟩ := cons.inj hrest
        rcases utf8EncodeChar_cases c with ⟨-, hone⟩ | ⟨-, hhigh⟩
        · rw [hone] at hc
          have hlen := congrArg length hc
          simp only [length_cons, length_nil, length_append] at hlen
          have hx : xs = [] := eq_nil_of_length_eq_zero (by omega)
          have hmore : more = [] := eq_nil_of_length_eq_zero (by omega)
          subst hx hmore
          exact ⟨isUtf8_nil, isUtf8_iff.2 ⟨cs, rfl⟩⟩
        · have hle := hhigh b (by rw [hc]; simp)
          exact absurd hb (by simpa using hle)
    · have hrest' : IsUtf8 (more ++ b :: ys) := isUtf8_iff.2 ⟨cs, hrest.symm⟩
      obtain ⟨hl, hr⟩ := ih hrest' hrest.symm
      exact ⟨(isUtf8_iff.2 ⟨[c], by simp⟩ : IsUtf8 (String.utf8EncodeChar c)).append hl, hr⟩

end Praxis.Lib
