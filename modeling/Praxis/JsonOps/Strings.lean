/-
Strings of the document and strings the rewriter writes. A key is read the same way with and
without escapes, and the encoder for added member names is undone by any decoder that keeps to
the RFC.
-/
import Praxis.JsonOps.Rewrite
import Praxis.JsonOps.Tokens

namespace Praxis.JsonOps

open String Char UInt8 List Praxis.Lib Praxis.Lib.Json

/-! ## Characters that stand for themselves -/

/-- The character has no need of an escape. -/
def PlainChar (c : Char) : Prop := 32 ≤ c.val.toNat ∧ c ≠ Char.ofNat 34 ∧ c ≠ Char.ofNat 92

variable {c : Char} {b : UInt8} {bytes rest body : Bytes} {cs : List Char} {sj : SerdeJson}

theorem char_eq_of_toNat {d : Char} (h : c.val.toNat = d.val.toNat) : c = d := ext (UInt32.toNat_inj.1 h)

theorem isUnescaped_high (h : 128 ≤ b) : isUnescaped b = true := by
  have hle := le_iff_toNat_le.1 h
  simp only [isUnescaped, Bool.and_eq_true, decide_eq_true_eq, bne_iff_ne, ne_eq]
  refine ⟨⟨le_iff_toNat_le.2 (Nat.le_trans (by decide) hle), ?_⟩, ?_⟩
  · rintro rfl
    exact absurd h (by decide)
  · rintro rfl
    exact absurd h (by decide)

theorem toNat_low (h : c.val.toNat < 128) : (UInt8.ofNat c.val.toNat).toNat = c.val.toNat :=
  UInt8.toNat_ofNat_of_lt' (Nat.lt_trans h (by decide))

theorem plainChar_iff (c : Char) : PlainChar c ↔ ∀ b ∈ String.utf8EncodeChar c, isUnescaped b = true := by
  have hquote : c = Char.ofNat 34 ↔ c.val.toNat = 34 := ⟨fun h => h ▸ rfl, fun h => char_eq_of_toNat h⟩
  have hback : c = Char.ofNat 92 ↔ c.val.toNat = 92 := ⟨fun h => h ▸ rfl, fun h => char_eq_of_toNat h⟩
  rw [PlainChar, Ne, Ne, hquote, hback]
  rcases utf8EncodeChar_cases c with ⟨hlow, hone⟩ | ⟨hhigh, hbytes⟩
  · have hnat := toNat_low hlow
    rw [hone, forall_mem_singleton]
    simp only [isUnescaped, Bool.and_eq_true, decide_eq_true_eq, bne_iff_ne, ne_eq, UInt8.le_iff_toNat_le,
      ← UInt8.toNat_inj, hnat, QUOTE, BACKSLASH, UInt8.reduceToNat]
    rw [and_assoc]
  · constructor
    · intro _ b hb
      exact isUnescaped_high (hbytes b hb)
    · intro _
      exact ⟨by omega, by omega, by omega⟩

theorem isChars_append_raw (h : ∀ b ∈ bytes, isUnescaped b = true) : isChars (bytes ++ rest) = isChars rest := by
  induction bytes with
  | nil => rfl
  | cons b bytes ih =>
    have hb := h b (.head _)
    have hne : b ≠ BACKSLASH := by
      rintro rfl
      cases hb
    rw [cons_append, isChars_raw hne, hb, Bool.true_and, ih fun c hc => h c (.tail b hc)]

theorem denotes_isChars (h : Denotes body cs) : isChars body = true := by
  induction h with
  | nil => rfl
  | char hc _ ih => rw [isChars_append_raw ((plainChar_iff _).1 hc), ih]
  | escape he _ ih => rw [isChars_simple he, ih]
  | unicode hhex _ _ ih => exact isChars_unicode.2 ⟨hhex, ih⟩
  | pair hhex _ _ _ ih =>
    simp only [mem_cons, not_mem_nil, or_false, forall_eq_or_imp, forall_eq] at hhex
    obtain ⟨h1, h2, h3, h4, h5, h6, h7, h8⟩ := hhex
    refine isChars_unicode.2 ⟨by simp [h1, h2, h3, h4], isChars_unicode.2 ⟨by simp [h5, h6, h7, h8], ih⟩⟩

theorem isUnescaped_of_isChars (h : isChars body = true) (hback : BACKSLASH ∉ body) : ∀ b ∈ body, isUnescaped b = true := by
  induction body with
  | nil => rintro _ ⟨⟩
  | cons b body ih =>
    have hne : b ≠ BACKSLASH := fun heq => hback (heq ▸ (.head _))
    rw [isChars_raw hne, Bool.and_eq_true] at h
    intro c hc
    rcases hc with _ | ⟨_, hc⟩
    · exact h.1
    · exact ih h.2 (fun hmem => hback (.tail b hmem)) c hc

/-- Without escapes a string stands for the characters it is written with. -/
theorem denotes_plain : ∀ (cs : List Char), (∀ b ∈ cs.flatMap String.utf8EncodeChar, isUnescaped b = true) →
    Denotes (cs.flatMap String.utf8EncodeChar) cs
  | [], _ => .nil
  | c :: cs, h => by
    rw [flatMap_cons] at h ⊢
    refine .char ((plainChar_iff c).2 fun b hb => h b (mem_append_left _ hb)) (denotes_plain cs fun b hb => ?_)
    exact h b (mem_append_right _ hb)

/-! ## Reading a key -/

theorem spanTo_append (start rest : Bytes) : spanTo (start ++ rest) rest = start := by
  simp [spanTo]

theorem inner_text {tok : StrTok} : (tok.text.drop 1).dropLast = tok.body := by
  simp [StrTok.text, quoted]

/-- Both ways of reading a key are the decoder's. -/
theorem fromUtf8_body (laws : sj.Laws) {tok : StrTok} (hback : BACKSLASH ∉ tok.body) :
    fromUtf8 tok.body = sj.decodeString tok.text := by
  rcases hutf8 : fromUtf8 tok.body with _ | s
  · -- a token that is no text is not decoded
    rcases hdec : sj.decodeString tok.text with _ | s
    · rfl
    · have hquote : (QUOTE : UInt8) < 128 := by decide
      have htext : IsUtf8 ([] ++ QUOTE :: (tok.body ++ [QUOTE])) := laws.decode_utf8 hdec
      obtain ⟨s', hs'⟩ := ((htext.split hquote).2.split hquote).1
      rw [hutf8] at hs'
      cases hs'
  · have hbody := fromUtf8_eq_some_iff.1 hutf8
    have hplain := isUnescaped_of_isChars tok.ok hback
    rw [hbody] at hplain
    have hdenotes := denotes_plain s.toList hplain
    rw [StrTok.text, hbody]
    exact (ofList_toList.symm ▸ (laws.decode_denotes hdenotes)).symm

theorem parseString_tok (laws : sj.Laws) (tok : StrTok) (rest : Bytes) :
    parseString sj (tok.text ++ rest) =
      match sj.decodeString tok.text with
      | some decoded => .ok (tok.text, decoded, rest)
      | none => .error .invalidJson := by
  rw [parseString, skipStringWithMeta_tok, ok_bind]
  simp only [spanTo_append, inner_text]
  have hdecode : (if tok.body.contains BACKSLASH = true then sj.decodeString tok.text else fromUtf8 tok.body) =
      sj.decodeString tok.text := by
    by_cases hback : BACKSLASH ∈ tok.body
    · rw [if_pos (by simpa using hback)]
    · rw [if_neg (by simpa using hback), fromUtf8_body laws hback]
  cases hdecoded : sj.decodeString tok.text <;> rw [hdecoded] at hdecode <;> simp only [hdecode]

theorem parseString_eq_ok {input : Bytes} {raw : Bytes} {key : String} (h : parseString sj input = .ok (raw, key, rest)) :
    skipString input = .ok rest := by
  obtain ⟨⟨left, escaped⟩, hmeta, h⟩ := bind_eq_ok h
  simp only at h
  split at h
  case h_2 => cases h
  case h_1 =>
    cases h
    rw [skipString, hmeta]
    rfl

/-! ## Writing a key -/

theorem hex4_control (h : b ≤ 0x1F) :
    (∀ d ∈ [48, 48, hex (b >>> 4), hex (b &&& 0x0F)], isHexDigit d = true) ∧
      hex4 48 48 (hex (b >>> 4)) (hex (b &&& 0x0F)) = b.toNat := by
  have hall : ∀ n : Fin 32, (∀ d ∈ [48, 48, hex (UInt8.ofNat n >>> 4), hex (UInt8.ofNat n &&& 0x0F)], isHexDigit d = true) ∧
      hex4 48 48 (hex (UInt8.ofNat n >>> 4)) (hex (UInt8.ofNat n &&& 0x0F)) = n := by decide
  have hlt : b.toNat < 32 := Nat.lt_succ_of_le (UInt8.le_iff_toNat_le.1 h)
  have hb := hall ⟨b.toNat, hlt⟩
  simp only [UInt8.ofNat_toNat] at hb
  exact hb

theorem encodeByte_unescaped (h : isUnescaped b = true) : encodeByte b = [b] := by
  simp only [isUnescaped, Bool.and_eq_true, decide_eq_true_eq, bne_iff_ne, ne_eq] at h
  obtain ⟨⟨hlow, hquote⟩, hback⟩ := h
  have hcontrol : ¬ b ≤ 0x1F := by
    rw [le_iff_toNat_le] at hlow ⊢
    exact Nat.not_le.2 hlow
  have hne : b ≠ 10 ∧ b ≠ 13 ∧ b ≠ 9 := by
    refine ⟨?_, ?_, ?_⟩ <;> (rintro rfl; exact absurd hlow (by decide))
  rw [encodeByte, if_neg hquote, if_neg hback, if_neg hne.1, if_neg hne.2.1, if_neg hne.2.2, if_neg hcontrol]

theorem flatMap_encodeByte (h : ∀ b ∈ bytes, isUnescaped b = true) : bytes.flatMap encodeByte = bytes := by
  induction bytes with
  | nil => rfl
  | cons b bytes ih =>
    rw [flatMap_cons, encodeByte_unescaped (h b (.head _)), ih fun c hc => h c (.tail b hc)]
    rfl

theorem denotes_encodeByte (h : isUnescaped b = false) (hrest : Denotes rest cs) :
    Denotes (encodeByte b ++ rest) (ofNat b.toNat :: cs) := by
  rw [encodeByte]
  split_ifs with hquote hback hn hr ht hcontrol
  · subst hquote
    exact .escape (e := QUOTE) rfl hrest
  · subst hback
    exact .escape (e := BACKSLASH) rfl hrest
  · subst hn
    exact .escape (e := 110) rfl hrest
  · subst hr
    exact .escape (e := 114) rfl hrest
  · subst ht
    exact .escape (e := 116) rfl hrest
  · obtain ⟨hhex, hvalue⟩ := hex4_control hcontrol
    have hle : b.toNat ≤ 31 := le_iff_toNat_le.1 hcontrol
    have hone : isHighSurrogate b.toNat = false ∧ isLowSurrogate b.toNat = false := by
      simp only [isHighSurrogate, isLowSurrogate, Bool.and_eq_false_iff, decide_eq_false_iff_not]
      exact ⟨.inl (by omega), .inl (by omega)⟩
    have hunicode := Denotes.unicode hhex (hvalue.symm ▸ hone) hrest
    rw [hvalue] at hunicode
    exact hunicode
  · refine absurd h ?_
    have hge : 32 ≤ b := by
      rw [le_iff_toNat_le] at hcontrol ⊢
      exact Nat.not_le.1 hcontrol
    simp [isUnescaped, hquote, hback, hge]

theorem denotes_encodeChar (c : Char) (h : Denotes rest cs) :
    Denotes ((String.utf8EncodeChar c).flatMap encodeByte ++ rest) (c :: cs) := by
  by_cases hplain : PlainChar c
  · rw [flatMap_encodeByte ((plainChar_iff c).1 hplain)]
    exact .char hplain h
  · rcases utf8EncodeChar_cases c with ⟨hlow, hone⟩ | ⟨hhigh, hbytes⟩
    · have hchar : Char.ofNat (UInt8.ofNat c.val.toNat).toNat = c := by
        rw [toNat_low hlow]
        exact Char.ofNat_toNat c
      have hescaped : isUnescaped (UInt8.ofNat c.val.toNat) = false := by
        rw [plainChar_iff, hone, forall_mem_singleton, Bool.not_eq_true] at hplain
        exact hplain
      have hbyte := denotes_encodeByte hescaped h
      rw [hchar] at hbyte
      rw [hone]
      simpa using hbyte
    · exact absurd ((plainChar_iff c).2 fun b hb => isUnescaped_high (hbytes b hb)) hplain

theorem denotes_encodeChars : ∀ cs : List Char, Denotes ((cs.flatMap utf8EncodeChar).flatMap encodeByte) cs
  | [] => .nil
  | c :: cs => by
    rw [flatMap_cons, flatMap_append]
    exact denotes_encodeChar c (denotes_encodeChars cs)

/-- The token that `encode_json_string` writes. -/
def keyTok (key : String) : StrTok := ⟨(utf8 key).flatMap encodeByte, denotes_isChars (denotes_encodeChars key.toList)⟩

theorem keyTok_text (key : String) : (keyTok key).text = encodeJsonString key := rfl

theorem decode_keyTok (laws : sj.Laws) (key : String) : sj.decodeString (keyTok key).text = some key := by
  have h := laws.decode_denotes (denotes_encodeChars key.toList)
  rw [ofList_toList] at h
  exact h

end Praxis.JsonOps
