/-
JSON texts, RFC 8259. A concrete syntax tree holds every byte of a text, white space included,
and cannot be built wrong: `Cst.text` is the text. Read with a decoder for string tokens, a
syntax tree gives a tree of values, in which member names and strings are decoded and numbers
keep their digits. `Denotes` says what a string token without unpaired surrogates stands for.
-/
import Praxis.Lib.Ascii
import Praxis.Lib.Utf8
import Mathlib.Data.List.Nodup

namespace Praxis.Lib.Json

open Option

abbrev Bytes := List UInt8

def QUOTE : UInt8 := 34
def BACKSLASH : UInt8 := 92
def COMMA : UInt8 := 44
def LBRACE : UInt8 := 123
def RBRACE : UInt8 := 125
def LBRACKET : UInt8 := 91
def RBRACKET : UInt8 := 93
def MINUS : UInt8 := 45
def ZERO : UInt8 := 48
def DOT : UInt8 := 46

def isWs (b : UInt8) : Bool := b == 32 || b == 9 || b == 10 || b == 13

def isDigit (b : UInt8) : Bool := decide (48 ≤ b) && decide (b ≤ 57)

def isHexDigit (b : UInt8) : Bool :=
  isDigit b || (decide (65 ≤ b) && decide (b ≤ 70)) || (decide (97 ≤ b) && decide (b ≤ 102))

def isExp (b : UInt8) : Bool := b == 101 || b == 69

def isSign (b : UInt8) : Bool := b == 43 || b == 45

/-! ## Tokens -/

structure Ws where
  bytes : Bytes
  ok : ∀ b ∈ bytes, isWs b = true

def Ws.empty : Ws := ⟨[], nofun⟩

@[simp] theorem Ws.empty_bytes : Ws.empty.bytes = [] := rfl

def Ws.append (ws ws' : Ws) : Ws :=
  ⟨ws.bytes ++ ws'.bytes, fun b hb => (List.mem_append.1 hb).elim (ws.ok b) (ws'.ok b)⟩

def Digits (ds : Bytes) : Prop := ds ≠ [] ∧ ∀ d ∈ ds, isDigit d = true

inductive IntPart : Bytes → Prop
  | zero : IntPart [ZERO]
  | nonzero {d : UInt8} {ds : Bytes} (hd : isDigit d = true) (hne : d ≠ ZERO) (hds : ∀ x ∈ ds, isDigit x = true) :
    IntPart (d :: ds)

inductive FracPart : Bytes → Prop
  | none : FracPart []
  | some {ds : Bytes} (h : Digits ds) : FracPart (DOT :: ds)

inductive ExpPart : Bytes → Prop
  | none : ExpPart []
  | plain {e : UInt8} {ds : Bytes} (he : isExp e = true) (h : Digits ds) : ExpPart (e :: ds)
  | signed {e s : UInt8} {ds : Bytes} (he : isExp e = true) (hs : isSign s = true) (h : Digits ds) :
    ExpPart (e :: s :: ds)

/-- `number = [ minus ] int [ frac ] [ exp ]`. -/
inductive IsNumber : Bytes → Prop
  | mk {minus int frac exp : Bytes} (hm : minus = [] ∨ minus = [MINUS]) (hi : IntPart int) (hf : FracPart frac)
    (he : ExpPart exp) : IsNumber (minus ++ int ++ frac ++ exp)

structure Num where
  tok : Bytes
  ok : IsNumber tok

theorem Num.ext {m n : Num} (h : m.tok = n.tok) : m = n := by
  cases m
  cases n
  cases h
  rfl

/-- The letters that may follow a backslash, other than `u`. -/
def isSimpleEscape (b : UInt8) : Bool :=
  b == QUOTE || b == BACKSLASH || b == 47 || b == 98 || b == 102 || b == 110 || b == 114 || b == 116

/-- A byte that stands for itself in a string, or for a part of a character that does. -/
def isUnescaped (b : UInt8) : Bool := decide (32 ≤ b) && b != QUOTE && b != BACKSLASH

/-- `*char`, the inside of a string. -/
def isChars : Bytes → Bool
  | [] => true
  | b :: rest =>
    if b = BACKSLASH then
      match rest with
      | [] => false
      | e :: rest =>
        if isSimpleEscape e then isChars rest
        else if e = 117 then
          match rest with
          | h1 :: h2 :: h3 :: h4 :: rest =>
            isHexDigit h1 && isHexDigit h2 && isHexDigit h3 && isHexDigit h4 && isChars rest
          | _ => false
        else false
    else isUnescaped b && isChars rest

variable {rest : Bytes}

theorem isChars_unicode {h1 h2 h3 h4 : UInt8} :
    isChars (BACKSLASH :: 117 :: h1 :: h2 :: h3 :: h4 :: rest) = true ↔
      (∀ d ∈ [h1, h2, h3, h4], isHexDigit d = true) ∧ isChars rest = true := by
  have hu : isSimpleEscape 117 = false := by decide
  rw [isChars.eq_def]
  simp only [if_true, hu, Bool.false_eq_true, if_false, Bool.and_eq_true, List.mem_cons, List.not_mem_nil, or_false,
    forall_eq_or_imp, forall_eq]
  exact ⟨fun ⟨⟨⟨⟨a, b⟩, c⟩, d⟩, e⟩ => ⟨⟨a, b, c, d⟩, e⟩, fun ⟨⟨a, b, c, d⟩, e⟩ => ⟨⟨⟨⟨a, b⟩, c⟩, d⟩, e⟩⟩

theorem isChars_simple {e : UInt8} (he : isSimpleEscape e = true) (rest : Bytes) :
    isChars (BACKSLASH :: e :: rest) = isChars rest := by
  rw [isChars.eq_def]
  simp [he]

theorem isChars_raw {b : UInt8} (hb : b ≠ BACKSLASH) : isChars (b :: rest) = (isUnescaped b && isChars rest) := by
  rw [isChars.eq_def]
  simp [hb]

/-- The four ways the inside of a string goes on. -/
theorem isChars_induction {motive : (body : Bytes) → isChars body = true → Prop}
    (nil : motive [] rfl)
    (raw : ∀ b body, isUnescaped b = true → ∀ (hbody : isChars body = true) (h : isChars (b :: body) = true),
      motive body hbody → motive (b :: body) h)
    (simple : ∀ e body, isSimpleEscape e = true → ∀ (hbody : isChars body = true)
      (h : isChars (BACKSLASH :: e :: body) = true), motive body hbody → motive (BACKSLASH :: e :: body) h)
    (unicode : ∀ h1 h2 h3 h4 body, (∀ d ∈ [h1, h2, h3, h4], isHexDigit d = true) → ∀ (hbody : isChars body = true)
      (h : isChars (BACKSLASH :: 117 :: h1 :: h2 :: h3 :: h4 :: body) = true),
      motive body hbody → motive (BACKSLASH :: 117 :: h1 :: h2 :: h3 :: h4 :: body) h) :
    ∀ (body : Bytes) (h : isChars body = true), motive body h
  | [], _ => nil
  | b :: body, h => by
    by_cases hb : b = BACKSLASH
    · subst hb
      match body, h with
      | [], h => cases h
      | e :: body, h =>
        by_cases he : isSimpleEscape e = true
        · have hbody : isChars body = true := (isChars_simple he body).symm.trans h
          exact simple e body he hbody h (isChars_induction nil raw simple unicode body hbody)
        · have h' := h
          rw [isChars.eq_def] at h'
          simp only [if_true, he, Bool.false_eq_true, if_false] at h'
          split at h'
          case isFalse => cases h'
          case isTrue hu =>
            subst hu
            match body, h with
            | h1 :: h2 :: h3 :: h4 :: body, h =>
              obtain ⟨hhex, hbody⟩ := isChars_unicode.1 h
              exact unicode h1 h2 h3 h4 body hhex hbody h (isChars_induction nil raw simple unicode body hbody)
            | [], _ => cases h'
            | [_], _ => cases h'
            | [_, _], _ => cases h'
            | [_, _, _], _ => cases h'
    · obtain ⟨hraw, hbody⟩ : isUnescaped b = true ∧ isChars body = true := by
        rw [isChars_raw hb] at h
        exact (Bool.and_eq_true _ _).mp h
      exact raw b body hraw hbody h (isChars_induction nil raw simple unicode body hbody)

structure StrTok where
  body : Bytes
  ok : isChars body = true

/-- The token of a string, in its quotes. -/
def quoted (body : Bytes) : Bytes := QUOTE :: (body ++ [QUOTE])

def StrTok.text (tok : StrTok) : Bytes := quoted tok.body

inductive Scalar where
  | null
  | bool (b : Bool)
  | num (n : Num)
  | str (tok : StrTok)

def TRUE : Bytes := [116, 114, 117, 101]
def FALSE : Bytes := [102, 97, 108, 115, 101]
def NULL : Bytes := [110, 117, 108, 108]

def Scalar.text : Scalar → Bytes
  | .null => NULL
  | .bool true => TRUE
  | .bool false => FALSE
  | .num n => n.tok
  | .str tok => tok.text

/-! ## Syntax trees -/

mutual

/-- A value without the white space around it. The first white space of a container comes right
after its opening bracket. -/
inductive Cst where
  | scalar (s : Scalar)
  | array (ws : Ws) (es : Elems)
  | object (ws : Ws) (members : Members)

inductive Elems where
  | nil
  | cons (pre : Ws) (val : Cst) (post : Ws) (rest : Elems)

inductive Members where
  | nil
  | cons (pre : Ws) (key : StrTok) (mid : Ws) (gap : Ws) (val : Cst) (post : Ws) (rest : Members)

end

/-- The comma before an item that is not the first. -/
def comma (seen : Bool) : Bytes := if seen then [COMMA] else []

mutual

def Cst.text : Cst → Bytes
  | .scalar s => s.text
  | .array ws es => LBRACKET :: es.text ws false
  | .object ws members => LBRACE :: members.text ws false

/-- What is left of an array: white space, and either the bracket or the next element. -/
def Elems.text : Elems → Ws → Bool → Bytes
  | .nil, ws, _ => ws.bytes ++ [RBRACKET]
  | .cons pre val post rest, ws, seen =>
    ws.bytes ++ (comma seen ++ (pre.bytes ++ (val.text ++ rest.text post true)))

def Members.text : Members → Ws → Bool → Bytes
  | .nil, ws, _ => ws.bytes ++ [RBRACE]
  | .cons pre key mid gap val post rest, ws, seen =>
    ws.bytes ++ (comma seen ++ (pre.bytes ++ (key.text ++ (mid.bytes ++ (COLON :: (gap.bytes ++
      (val.text ++ rest.text post true)))))))

end

mutual

/-- How deep arrays and objects are nested. -/
def Cst.depth : Cst → Nat
  | .scalar _ => 0
  | .array _ es => es.depth + 1
  | .object _ members => members.depth + 1

def Elems.depth : Elems → Nat
  | .nil => 0
  | .cons _ val _ rest => max val.depth rest.depth

def Members.depth : Members → Nat
  | .nil => 0
  | .cons _ _ _ _ val _ rest => max val.depth rest.depth

end

/-! ## Values -/

inductive Tree where
  | null
  | bool (b : Bool)
  | num (n : Num)
  | str (s : String)
  | arr (es : List Tree)
  | obj (members : List (String × Tree))

mutual

/-- No object has two members of the same name. -/
def Tree.distinct : Tree → Bool
  | .arr es => distinctElems es
  | .obj members => decide (members.map Prod.fst).Nodup && distinctMembers members
  | _ => true
termination_by structural t => t

def distinctElems : List Tree → Bool
  | [] => true
  | t :: ts => t.distinct && distinctElems ts
termination_by structural ts => ts

def distinctMembers : List (String × Tree) → Bool
  | [] => true
  | (_, t) :: ms => t.distinct && distinctMembers ms
termination_by structural ms => ms

end

section

variable (dec : Bytes → Option String)

def Scalar.tree : Scalar → Option Tree
  | .null => some .null
  | .bool b => some (.bool b)
  | .num n => some (.num n)
  | .str tok => (dec tok.text).map .str

mutual

/-- The value of a syntax tree, if all its strings can be decoded. -/
def Cst.tree : Cst → Option Tree
  | .scalar s => s.tree dec
  | .array _ es => es.trees.map .arr
  | .object _ members => members.trees.map .obj

def Elems.trees : Elems → Option (List Tree)
  | .nil => some []
  | .cons _ val _ rest =>
    match val.tree, rest.trees with
    | some v, some vs => some (v :: vs)
    | _, _ => none

def Members.trees : Members → Option (List (String × Tree))
  | .nil => some []
  | .cons _ key _ _ val _ rest =>
    match dec key.text, val.tree, rest.trees with
    | some k, some v, some ms => some ((k, v) :: ms)
    | _, _, _ => none

end

variable {pre post : Ws} {val : Cst}

theorem trees_cons {rest : Elems} {ts : List Tree} (h : (Elems.cons pre val post rest).trees dec = some ts) :
    ∃ t more, val.tree dec = some t ∧ rest.trees dec = some more ∧ ts = t :: more := by
  rw [Elems.trees] at h
  split at h
  case h_1 t more ht hmore => exact ⟨t, more, ht, hmore, (some.inj h).symm⟩
  case h_2 => cases h

theorem memberTrees_cons {mid gap : Ws} {key : StrTok} {rest : Members} {ms : List (String × Tree)}
    (h : (Members.cons pre key mid gap val post rest).trees dec = some ms) :
    ∃ name t more, dec key.text = some name ∧ val.tree dec = some t ∧ rest.trees dec = some more ∧ ms = (name, t) :: more := by
  rw [Members.trees] at h
  split at h
  case h_1 name t more hname ht hmore => exact ⟨name, t, more, hname, ht, hmore, (some.inj h).symm⟩
  case h_2 => cases h

/-- The names of the members, as far as they can be decoded. -/
def Members.names : Members → List String
  | .nil => []
  | .cons _ key _ _ _ _ rest =>
    match dec key.text with
    | some name => name :: rest.names
    | none => rest.names

mutual

/-- No object has two members of the same name. -/
def Cst.distinct : Cst → Bool
  | .scalar _ => true
  | .array _ es => es.distinct
  | .object _ members => decide (members.names dec).Nodup && members.distinct

def Elems.distinct : Elems → Bool
  | .nil => true
  | .cons _ val _ rest => val.distinct && rest.distinct

def Members.distinct : Members → Bool
  | .nil => true
  | .cons _ _ _ _ val _ rest => val.distinct && rest.distinct

end

mutual

theorem distinct_tree (c : Cst) (t : Tree) (h : c.tree dec = some t) : c.distinct dec = t.distinct := by
  match c with
  | .scalar s =>
    have hscalar : t.distinct = true := by
      rcases s with _ | b | n | tok
      · cases h
        rfl
      · cases h
        rfl
      · cases h
        rfl
      · obtain ⟨s, -, rfl⟩ := map_eq_some_iff.1 h
        rfl
    rw [hscalar]
    rfl
  | .array _ es =>
    obtain ⟨ts, hts, rfl⟩ := map_eq_some_iff.1 h
    rw [Cst.distinct, Tree.distinct, distinct_trees es ts hts]
  | .object _ members =>
    obtain ⟨ms, hms, rfl⟩ := map_eq_some_iff.1 h
    obtain ⟨hnames, hdistinct⟩ := distinct_memberTrees members ms hms
    rw [Cst.distinct, Tree.distinct, hnames, hdistinct]
termination_by structural c

theorem distinct_trees (es : Elems) (ts : List Tree) (h : es.trees dec = some ts) : es.distinct dec = distinctElems ts := by
  match es with
  | .nil =>
    cases h
    rfl
  | .cons _ val _ rest =>
    obtain ⟨t, more, ht, hmore, rfl⟩ := trees_cons dec h
    rw [Elems.distinct, distinctElems, distinct_tree val t ht, distinct_trees rest more hmore]
termination_by structural es

theorem distinct_memberTrees (members : Members) (ms : List (String × Tree)) (h : members.trees dec = some ms) :
    members.names dec = ms.map Prod.fst ∧ members.distinct dec = distinctMembers ms := by
  match members with
  | .nil =>
    cases h
    exact ⟨rfl, rfl⟩
  | .cons _ key _ _ val _ rest =>
    obtain ⟨name, t, more, hname, ht, hmore, rfl⟩ := memberTrees_cons dec h
    obtain ⟨hnames, hdistinct⟩ := distinct_memberTrees rest more hmore
    rw [Members.names, Members.distinct, distinctMembers, distinct_tree val t ht, hname, hnames, hdistinct]
    exact ⟨rfl, rfl⟩
termination_by structural members

end

end

/-! White space has no part in the value. -/

mutual

/-- The syntax tree without white space. -/
def Cst.strip : Cst → Cst
  | .scalar s => .scalar s
  | .array _ es => .array .empty es.strip
  | .object _ members => .object .empty members.strip

def Elems.strip : Elems → Elems
  | .nil => .nil
  | .cons _ val _ rest => .cons .empty val.strip .empty rest.strip

def Members.strip : Members → Members
  | .nil => .nil
  | .cons _ key _ _ val _ rest => .cons .empty key .empty .empty val.strip .empty rest.strip

end

section

variable (dec : Bytes → Option String)

mutual

theorem tree_strip (c : Cst) : c.strip.tree dec = c.tree dec := by
  match c with
  | .scalar s => rfl
  | .array _ es => rw [Cst.strip, Cst.tree, Cst.tree, trees_strip es]
  | .object _ members => rw [Cst.strip, Cst.tree, Cst.tree, memberTrees_strip members]
termination_by structural c

theorem trees_strip (es : Elems) : es.strip.trees dec = es.trees dec := by
  match es with
  | .nil => rfl
  | .cons _ val _ rest => rw [Elems.strip, Elems.trees, Elems.trees, tree_strip val, trees_strip rest]
termination_by structural es

theorem memberTrees_strip (members : Members) : members.strip.trees dec = members.trees dec := by
  match members with
  | .nil => rfl
  | .cons _ key _ _ val _ rest =>
    rw [Members.strip, Members.trees, Members.trees, tree_strip val, memberTrees_strip rest]
termination_by structural members

end

end

section

variable (dec : Bytes → Option String)

theorem names_strip (members : Members) : members.strip.names dec = members.names dec := by
  match members with
  | .nil => rfl
  | .cons _ key _ _ val _ rest => rw [Members.strip, Members.names, Members.names, names_strip rest]
termination_by structural members

mutual

theorem distinct_strip (c : Cst) : c.strip.distinct dec = c.distinct dec := by
  match c with
  | .scalar s => rfl
  | .array _ es => rw [Cst.strip, Cst.distinct, Cst.distinct, elems_distinct_strip es]
  | .object _ members =>
    rw [Cst.strip, Cst.distinct, Cst.distinct, names_strip, members_distinct_strip members]
termination_by structural c

theorem elems_distinct_strip (es : Elems) : es.strip.distinct dec = es.distinct dec := by
  match es with
  | .nil => rfl
  | .cons _ val _ rest =>
    rw [Elems.strip, Elems.distinct, Elems.distinct, distinct_strip val, elems_distinct_strip rest]
termination_by structural es

theorem members_distinct_strip (members : Members) : members.strip.distinct dec = members.distinct dec := by
  match members with
  | .nil => rfl
  | .cons _ key _ _ val _ rest =>
    rw [Members.strip, Members.distinct, Members.distinct, distinct_strip val, members_distinct_strip rest]
termination_by structural members

end

end

/-! ## Strings -/

def hexValue (b : UInt8) : Nat :=
  if isDigit b then b.toNat - 48 else if b ≤ 70 then b.toNat - 55 else b.toNat - 87

/-- The number that four hexadecimal digits give. -/
def hex4 (h1 h2 h3 h4 : UInt8) : Nat :=
  ((hexValue h1 * 16 + hexValue h2) * 16 + hexValue h3) * 16 + hexValue h4

/-- The character that a letter after a backslash stands for. -/
def escapedChar (e : UInt8) : Char :=
  if e = 98 then Char.ofNat 8
  else if e = 102 then Char.ofNat 12
  else if e = 110 then Char.ofNat 10
  else if e = 114 then Char.ofNat 13
  else if e = 116 then Char.ofNat 9
  else Char.ofNat e.toNat

def isHighSurrogate (n : Nat) : Bool := decide (0xD800 ≤ n) && decide (n ≤ 0xDBFF)

def isLowSurrogate (n : Nat) : Bool := decide (0xDC00 ≤ n) && decide (n ≤ 0xDFFF)

/-- The character that a pair of surrogates stands for. -/
def pairedChar (high low : Nat) : Char := Char.ofNat (0x10000 + (high - 0xD800) * 0x400 + (low - 0xDC00))

/-- The characters that the inside of a string stands for. There is none for an escape that is
one half of a surrogate pair. -/
inductive Denotes : Bytes → List Char → Prop
  | nil : Denotes [] []
  | char {c : Char} {rest : Bytes} {cs : List Char} (hc : 32 ≤ c.val.toNat ∧ c ≠ Char.ofNat 34 ∧ c ≠ Char.ofNat 92)
    (h : Denotes rest cs) : Denotes (String.utf8EncodeChar c ++ rest) (c :: cs)
  | escape {e : UInt8} {rest : Bytes} {cs : List Char} (he : isSimpleEscape e = true) (h : Denotes rest cs) :
    Denotes (BACKSLASH :: e :: rest) (escapedChar e :: cs)
  | unicode {h1 h2 h3 h4 : UInt8} {rest : Bytes} {cs : List Char}
    (hhex : ∀ d ∈ [h1, h2, h3, h4], isHexDigit d = true)
    (hone : isHighSurrogate (hex4 h1 h2 h3 h4) = false ∧ isLowSurrogate (hex4 h1 h2 h3 h4) = false)
    (h : Denotes rest cs) :
    Denotes (BACKSLASH :: 117 :: h1 :: h2 :: h3 :: h4 :: rest) (Char.ofNat (hex4 h1 h2 h3 h4) :: cs)
  | pair {h1 h2 h3 h4 l1 l2 l3 l4 : UInt8} {rest : Bytes} {cs : List Char}
    (hhex : ∀ d ∈ [h1, h2, h3, h4, l1, l2, l3, l4], isHexDigit d = true)
    (hhigh : isHighSurrogate (hex4 h1 h2 h3 h4) = true) (hlow : isLowSurrogate (hex4 l1 l2 l3 l4) = true)
    (h : Denotes rest cs) :
    Denotes (BACKSLASH :: 117 :: h1 :: h2 :: h3 :: h4 :: BACKSLASH :: 117 :: l1 :: l2 :: l3 :: l4 :: rest)
      (pairedChar (hex4 h1 h2 h3 h4) (hex4 l1 l2 l3 l4) :: cs)

/-! ## Documents -/

/-- The bytes are one JSON text: an optional byte order mark, and the value with white space
around it. -/
def TextOf (bytes : Bytes) (c : Cst) : Prop :=
  ∃ (mark : Bool) (before after : Ws), bytes = (if mark then BOM else []) ++ (before.bytes ++ (c.text ++ after.bytes))

/-- The bytes are a JSON text for this value. -/
def Parses (dec : Bytes → Option String) (bytes : Bytes) (t : Tree) : Prop :=
  ∃ c : Cst, TextOf bytes c ∧ c.tree dec = some t

end Praxis.Lib.Json
