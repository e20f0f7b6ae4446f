/-
A `serde_json` that keeps to the laws: strings are decoded from their characters, values are
written without white space. An escape that is one half of a surrogate pair does not decode.
-/
import Praxis.JsonOps.Walk

namespace Praxis.JsonOps

open List Praxis.Lib Praxis.Lib.Json

/-! ## Strings -/

def hexDigit (c : Char) : Option Nat :=
  if 48 ≤ c.toNat ∧ c.toNat ≤ 57 then some (c.toNat - 48)
  else if 65 ≤ c.toNat ∧ c.toNat ≤ 70 then some (c.toNat - 55)
  else if 97 ≤ c.toNat ∧ c.toNat ≤ 102 then some (c.toNat - 87)
  else none

def hexNumber (h1 h2 h3 h4 : Char) : Option Nat := do
  let a ← hexDigit h1
  let b ← hexDigit h2
  let c ← hexDigit h3
  let d ← hexDigit h4
  some (((a * 16 + b) * 16 + c) * 16 + d)

/-- The character of a letter after a backslash. -/
def simpleEscape (c : Char) : Option Char :=
  if c.toNat < 128 ∧ isSimpleEscape (UInt8.ofNat c.toNat) = true then some (escapedChar (UInt8.ofNat c.toNat)) else none

/-- The characters up to the closing quote, which is the last. -/
def unescape : List Char → Option (List Char)
  | [] => none
  | c :: rest =>
    if c = Char.ofNat 34 then (if rest = [] then some [] else none)
    else if c = Char.ofNat 92 then
      match rest with
      | [] => none
      | e :: rest =>
        if e = Char.ofNat 117 then
          match rest with
          | h1 :: h2 :: h3 :: h4 :: rest =>
            match hexNumber h1 h2 h3 h4 with
            | none => none
            | some n =>
              if isHighSurrogate n then
                match rest with
                | b :: u :: l1 :: l2 :: l3 :: l4 :: rest =>
                  if b = Char.ofNat 92 ∧ u = Char.ofNat 117 then
                    match hexNumber l1 l2 l3 l4 with
                    | none => none
                    | some m => if isLowSurrogate m then (unescape rest).map (pairedChar n m :: ·) else none
                  else none
                | _ => none
              else if isLowSurrogate n then none
              else (unescape rest).map (Char.ofNat n :: ·)
          | _ => none
        else
          match simpleEscape e with
          | none => none
          | some c => (unescape rest).map (c :: ·)
    else if c.toNat < 32 then none
    else (unescape rest).map (c :: ·)

/-- A string token, read. -/
def decodeToken (tok : Bytes) : Option String :=
  match (fromUtf8 tok).map String.toList with
  | some (q :: rest) => if q = Char.ofNat 34 then (unescape rest).map String.ofList else none
  | _ => none

theorem decodeToken_utf8 {tok : Bytes} {s : String} (h : decodeToken tok = some s) : IsUtf8 tok := by
  rw [decodeToken] at h
  rcases htok : fromUtf8 tok with _ | text
  · rw [htok] at h
    cases h
  · exact ⟨text, htok⟩

/-! The characters of ASCII bytes. -/

def asciiChar (b : UInt8) : Char := Char.ofNat b.toNat

variable {b : UInt8} {body : Bytes} {cs : List Char}

theorem asciiChar_toNat (h : b.toNat < 128) : (asciiChar b).toNat = b.toNat := by
  have hvalid : b.toNat.isValidChar := Or.inl (by omega)
  rw [asciiChar, Char.toNat, Char.ofNat, dif_pos hvalid]
  rfl

theorem utf8EncodeChar_asciiChar (h : b.toNat < 128) : String.utf8EncodeChar (asciiChar b) = [b] := by
  have hval : (asciiChar b).val.toNat = b.toNat := asciiChar_toNat h
  rw [String.utf8EncodeChar, hval, if_pos (by omega), UInt8.ofNat_toNat]

theorem ascii_lt_of_isHexDigit (h : isHexDigit b = true) : b.toNat < 128 := by
  simp only [isHexDigit, isDigit, Bool.or_eq_true, Bool.and_eq_true, decide_eq_true_eq, UInt8.le_iff_toNat_le,
    UInt8.reduceToNat] at h
  omega

theorem hexDigit_asciiChar (h : isHexDigit b = true) : hexDigit (asciiChar b) = some (hexValue b) := by
  rw [hexDigit, asciiChar_toNat (ascii_lt_of_isHexDigit h), hexValue]
  simp only [isHexDigit, isDigit, Bool.or_eq_true, Bool.and_eq_true, decide_eq_true_eq, UInt8.le_iff_toNat_le,
    UInt8.reduceToNat] at h ⊢
  split_ifs <;> first | rfl | omega

theorem hexNumber_ascii {h1 h2 h3 h4 : UInt8} (h : ∀ d ∈ [h1, h2, h3, h4], isHexDigit d = true) :
    hexNumber (asciiChar h1) (asciiChar h2) (asciiChar h3) (asciiChar h4) = some (hex4 h1 h2 h3 h4) := by
  simp only [mem_cons, not_mem_nil, or_false, forall_eq_or_imp, forall_eq] at h
  obtain ⟨h1, h2, h3, h4⟩ := h
  rw [hexNumber, hexDigit_asciiChar h1, hexDigit_asciiChar h2, hexDigit_asciiChar h3, hexDigit_asciiChar h4]
  rfl

theorem flatMap_ascii {bytes : Bytes} (h : ∀ b ∈ bytes, b.toNat < 128) (src : List Char) :
    (bytes.map asciiChar ++ src).flatMap String.utf8EncodeChar = bytes ++ src.flatMap String.utf8EncodeChar := by
  induction bytes with
  | nil => rfl
  | cons b bytes ih =>
    rw [map_cons, cons_append, flatMap_cons, utf8EncodeChar_asciiChar (h b (.head _)),
      ih fun c hc => h c (.tail b hc)]
    rfl

theorem simpleEscape_ascii {e : UInt8} (h : isSimpleEscape e = true) :
    e.toNat < 128 ∧ asciiChar e ≠ Char.ofNat 117 ∧ simpleEscape (asciiChar e) = some (escapedChar e) := by
  simp only [isSimpleEscape, Bool.or_eq_true, beq_iff_eq] at h
  rcases h with ((((((rfl | rfl) | rfl) | rfl) | rfl) | rfl) | rfl) | rfl <;> decide

/-- What stands for characters is the encoding of characters that unescape to them. -/
theorem unescape_of_denotes (h : Denotes body cs) :
    ∃ src : List Char, body = src.flatMap String.utf8EncodeChar ∧ unescape (src ++ [Char.ofNat 34]) = some cs := by
  have hback : ¬ asciiChar BACKSLASH = Char.ofNat 34 := by decide
  induction h with
  | nil => exact ⟨[], rfl, rfl⟩
  | @char c rest cs hc _ ih =>
    obtain ⟨src, rfl, hsrc⟩ := ih
    refine ⟨c :: src, rfl, ?_⟩
    have hlow : ¬ c.toNat < 32 := Nat.not_lt.2 hc.1
    rw [cons_append, unescape.eq_def]
    simp only [if_neg hc.2.1, if_neg hc.2.2, if_neg hlow, hsrc, Option.map_some]
  | @escape e rest cs he _ ih =>
    obtain ⟨src, rfl, hsrc⟩ := ih
    obtain ⟨hascii, hu, hescape⟩ := simpleEscape_ascii he
    refine ⟨[BACKSLASH, e].map asciiChar ++ src, ?_, ?_⟩
    · rw [flatMap_ascii (by simp [hascii, BACKSLASH])]
      rfl
    · simp only [map_cons, map_nil, cons_append, nil_append]
      rw [unescape.eq_def]
      simp only [if_neg hback, if_neg hu, hescape, hsrc, Option.map_some]
      rfl
  | @unicode h1 h2 h3 h4 rest cs hhex hone _ ih =>
    obtain ⟨src, rfl, hsrc⟩ := ih
    have hnumber := hexNumber_ascii hhex
    refine ⟨[BACKSLASH, 117, h1, h2, h3, h4].map asciiChar ++ src, ?_, ?_⟩
    · rw [flatMap_ascii]
      · rfl
      · intro b hb
        rcases hb with _ | ⟨_, hb⟩
        · decide
        rcases hb with _ | ⟨_, hb⟩
        · decide
        · exact ascii_lt_of_isHexDigit (hhex b hb)
    · simp only [map_cons, map_nil, cons_append, nil_append]
      rw [unescape.eq_def]
      simp only [if_neg hback, hnumber, hone.1, hone.2, hsrc, Option.map_some, Bool.false_eq_true, if_false]
      rfl
  | @pair h1 h2 h3 h4 l1 l2 l3 l4 rest cs hhex hhigh hlow _ ih =>
    obtain ⟨src, rfl, hsrc⟩ := ih
    have hfirst := hexNumber_ascii fun d hd => hhex d (mem_append_left [l1, l2, l3, l4] hd)
    have hsecond := hexNumber_ascii fun d hd => hhex d (mem_append_right [h1, h2, h3, h4] hd)
    refine ⟨[BACKSLASH, 117, h1, h2, h3, h4, BACKSLASH, 117, l1, l2, l3, l4].map asciiChar ++ src, ?_, ?_⟩
    · rw [flatMap_ascii]
      · rfl
      · intro b hb
        have hcases : b = BACKSLASH ∨ b = 117 ∨ b ∈ [h1, h2, h3, h4, l1, l2, l3, l4] := by
          simp only [mem_cons, not_mem_nil, or_false] at hb ⊢
          grind
        rcases hcases with rfl | rfl | hb
        · decide
        · decide
        · exact ascii_lt_of_isHexDigit (hhex b hb)
    · simp only [map_cons, map_nil, cons_append, nil_append]
      rw [unescape.eq_def]
      simp only [if_neg hback, hfirst, hsecond, hhigh, hlow, hsrc, Option.map_some, if_true]
      rfl

theorem decodeToken_denotes (h : Denotes body cs) : decodeToken (quoted body) = some (String.ofList cs) := by
  obtain ⟨src, rfl, hsrc⟩ := unescape_of_denotes h
  have htok : fromUtf8 (quoted (src.flatMap String.utf8EncodeChar)) =
      some (String.ofList (Char.ofNat 34 :: (src ++ [Char.ofNat 34]))) := by
    rw [fromUtf8_eq_some_iff, utf8_ofList, flatMap_cons, flatMap_append]
    rfl
  rw [decodeToken, htok]
  simp only [Option.map_some, String.toList_ofList, if_true, hsrc]

/-! ## Values -/

mutual

/-- The value of a tree, written without white space. -/
def ofTree : Tree → Cst
  | .null => .scalar .null
  | .bool b => .scalar (.bool b)
  | .num n => .scalar (.num n)
  | .str s => .scalar (.str (keyTok s))
  | .arr elems => .array .empty (ofElems (ofTrees elems))
  | .obj members => .object .empty (ofMembers (ofMemberTrees members))
termination_by structural t => t

def ofTrees : List Tree → List Cst
  | [] => []
  | t :: ts => ofTree t :: ofTrees ts
termination_by structural ts => ts

def ofMemberTrees : List (String × Tree) → List (StrTok × Cst)
  | [] => []
  | (k, t) :: ms => (keyTok k, ofTree t) :: ofMemberTrees ms
termination_by structural ms => ms

end

theorem decodeToken_keyTok (key : String) : decodeToken (keyTok key).text = some key := by
  have h := decodeToken_denotes (denotes_encodeChars key.toList)
  rw [String.ofList_toList] at h
  exact h

mutual

theorem ofTree_tree (t : Tree) : (ofTree t).tree decodeToken = some t := by
  match t with
  | .null => rfl
  | .bool b => rfl
  | .num n => rfl
  | .str s => rw [ofTree, Cst.tree, Scalar.tree, decodeToken_keyTok]; rfl
  | .arr elems => rw [ofTree, Cst.tree, ofTrees_trees elems]; rfl
  | .obj members => rw [ofTree, Cst.tree, ofMemberTrees_trees members]; rfl
  termination_by structural t

theorem ofTrees_trees (ts : List Tree) : (ofElems (ofTrees ts)).trees decodeToken = some ts := by
  match ts with
  | [] => rfl
  | t :: ts => rw [ofTrees, ofElems, Elems.trees, ofTree_tree t, ofTrees_trees ts]
  termination_by structural ts

theorem ofMemberTrees_trees (ms : List (String × Tree)) : (ofMembers (ofMemberTrees ms)).trees decodeToken = some ms := by
  match ms with
  | [] => rfl
  | (k, t) :: ms =>
    rw [ofMemberTrees, ofMembers, Members.trees, decodeToken_keyTok, ofTree_tree t, ofMemberTrees_trees ms]
  termination_by structural ms

end

/-! ## The codec -/

open Classical in
/-- A value that the bytes are a JSON text for. -/
noncomputable def decodeTree (bytes : Bytes) : Option Value :=
  if h : ∃ val : Value, Parses decodeToken bytes val.tree then some h.choose else none

noncomputable def codec : SerdeJson where
  decodeString := decodeToken
  encodeString := encodeJsonString
  decodeValue := decodeTree
  encodeValue := fun val => (ofTree val.tree).text

theorem codec_laws : codec.Laws where
  decode_denotes := decodeToken_denotes
  decode_utf8 := decodeToken_utf8
  encodeString_denotes := fun s => ⟨_, rfl, denotes_encodeChars s.toList⟩
  encodeValue_text := fun val => ⟨ofTree val.tree, rfl, ofTree_tree val.tree⟩

end Praxis.JsonOps
