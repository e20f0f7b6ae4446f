/-
The skipper against the grammar. What it passes over is exactly a JSON value within the nesting
that is left: a value followed by a delimiter is passed over as a whole, and what has been passed
over has a syntax tree. With that the grammar is unambiguous: a text has one tree.
-/
import Praxis.JsonOps.Tokens

namespace Praxis.JsonOps

open List Bool Nat Praxis.Lib Praxis.Lib.Json

/-! ## Items of a container -/

variable {close : UInt8} {input rest' : Bytes} {depth : Nat} {c' : Cst} {tok tok' : StrTok} {ws : Ws}

theorem nextItem_close (hclose : isWs close = false) (seen : Bool) {rest : Bytes} :
    nextItem close seen (ws.bytes ++ close :: rest) = .ok (true, rest) := by
  simp [nextItem, skipWs_cons hclose]

variable {b : UInt8} {rest bytes : Bytes} {c : Cst}

theorem nextItem_item (close : UInt8) (hcomma : close ≠ COMMA) (hws : isWs b = false) (hne : b ≠ close) (seen : Bool)
    (ws pre : Ws) (tail : Bytes) :
    nextItem close seen (ws.bytes ++ (comma seen ++ (pre.bytes ++ b :: tail))) = .ok (false, b :: tail) := by
  have hwsComma : isWs COMMA = false := rfl
  cases seen with
  | false => simp [nextItem, comma, skipWs_cons hws, hne]
  | true => simp [nextItem, comma, skipWs_cons hws, skipWs_cons hwsComma, hne, Ne.symm hcomma]

/-- What the head of the loop leaves: the rest after the closing bracket, or the next item. -/
theorem nextItem_eq_ok {seen closed : Bool} (h : nextItem close seen input = .ok (closed, rest)) :
    (closed = true ∧ ∃ ws : Ws, input = ws.bytes ++ close :: rest) ∨
    (closed = false ∧ ∃ ws pre : Ws, input = ws.bytes ++ (comma seen ++ (pre.bytes ++ rest))) := by
  obtain ⟨ws, hinput, -⟩ := skipWs_spec input
  obtain ⟨b, hb, h⟩ := bind_eq_ok h
  obtain ⟨tail, htail⟩ := nextByte_eq_ok hb
  rw [htail] at h hinput
  split at h
  case isTrue hclose =>
    cases h
    exact .inl ⟨rfl, ws, by rw [hinput, hclose]; rfl⟩
  case isFalse =>
    cases seen with
    | false =>
      cases h
      exact .inr ⟨rfl, ws, .empty, hinput⟩
    | true =>
      obtain ⟨afterComma, hcomma, hitem⟩ := bind_eq_ok h
      obtain ⟨first, hfirst, hitem⟩ := bind_eq_ok hitem
      split at hitem
      case isTrue => cases hitem
      case isFalse =>
        cases hitem
        obtain ⟨pre, hpre, -⟩ := skipWs_spec afterComma
        refine .inr ⟨rfl, ws, pre, ?_⟩
        rw [hinput, expectByte_eq_ok hcomma, ← hpre]
        rfl

/-! ## Values -/

/-- The byte after a value ends it. -/
def Delimited (rest : Bytes) : Prop := ∀ b ∈ rest.head?, isWs b = true ∨ b = COMMA ∨ b = RBRACKET ∨ b = RBRACE

theorem Delimited.endsNumber (h : Delimited rest) : EndsNumber rest := by
  intro b hb
  rcases h b hb with hws | rfl | rfl | rfl
  · simp only [isWs, or_eq_true, beq_iff_eq] at hws
    rcases hws with ((rfl | rfl) | rfl) | rfl <;> decide
  all_goals decide

theorem delimited_nil : Delimited [] := nofun

theorem delimited_ws_append (h : Delimited rest) : Delimited (ws.bytes ++ rest) := by
  intro b hb
  rcases hws : ws.bytes with _ | ⟨w, tail⟩
  · rw [hws] at hb
    exact h b hb
  · rw [hws] at hb
    obtain rfl : w = b := Option.some.inj hb
    exact .inl (ws.ok w (by rw [hws]; exact .head _))

theorem delimited_cons (h : b = COMMA ∨ b = RBRACKET ∨ b = RBRACE) : Delimited (b :: rest) := by
  intro c hc
  cases hc
  exact .inr h

theorem delimited_elems (es : Elems) (ws : Ws) (rest : Bytes) : Delimited (es.text ws true ++ rest) := by
  cases es with
  | nil =>
    rw [Elems.text, append_assoc]
    exact delimited_ws_append (delimited_cons (.inr (.inl rfl)))
  | cons pre val post es =>
    rw [Elems.text, append_assoc]
    exact delimited_ws_append (delimited_cons (.inl rfl))

theorem delimited_members (ms : Members) (ws : Ws) (rest : Bytes) : Delimited (ms.text ws true ++ rest) := by
  cases ms with
  | nil =>
    rw [Members.text, append_assoc]
    exact delimited_ws_append (delimited_cons (.inr (.inr rfl)))
  | cons pre key mid gap val post ms =>
    rw [Members.text, append_assoc]
    exact delimited_ws_append (delimited_cons (.inl rfl))

theorem elems_text_pos (es : Elems) (ws : Ws) : 0 < (es.text ws true).length := by
  cases es with
  | nil => simp [Elems.text]
  | cons pre val post es =>
    simp only [Elems.text, comma, if_true, length_append, length_singleton]
    omega

theorem members_text_pos (ms : Members) (ws : Ws) : 0 < (ms.text ws true).length := by
  cases ms with
  | nil => simp [Members.text]
  | cons pre key mid gap val post ms =>
    simp only [Members.text, comma, if_true, length_append, length_singleton]
    omega

theorem number_cons {tok : Bytes} (h : IsNumber tok) : ∃ b tail, tok = b :: tail ∧ (b = MINUS ∨ isDigit b = true) := by
  obtain ⟨hm, hi, hf, he⟩ := h
  rcases hm with rfl | rfl
  · obtain ⟨d, ds, rfl, hd⟩ := intPart_cons hi
    exact ⟨d, _, rfl, .inr hd⟩
  · exact ⟨MINUS, _, rfl, .inl rfl⟩

/-- A byte that a value can start with. -/
def isStart (b : UInt8) : Bool :=
  b == LBRACE || b == LBRACKET || b == QUOTE || b == 116 || b == 102 || b == 110 || b == MINUS || isDigit b

theorem isWs_of_isStart (h : isStart b = true) : isWs b = false := by
  cases hws : isWs b with
  | false => rfl
  | true =>
    simp only [isWs, or_eq_true, beq_iff_eq] at hws
    rcases hws with ((rfl | rfl) | rfl) | rfl <;> cases h

theorem ne_close_of_isStart (h : isStart b = true) : b ≠ RBRACKET ∧ b ≠ RBRACE := by
  constructor
  · rintro rfl
    cases h
  · rintro rfl
    cases h

theorem text_cons (c : Cst) : ∃ b tail, c.text = b :: tail ∧ isStart b = true := by
  cases c with
  | array ws es => exact ⟨LBRACKET, _, rfl, rfl⟩
  | object ws ms => exact ⟨LBRACE, _, rfl, rfl⟩
  | scalar s =>
    rcases s with _ | (_ | _) | n | tok
    · exact ⟨_, _, rfl, rfl⟩
    · exact ⟨_, _, rfl, rfl⟩
    · exact ⟨_, _, rfl, rfl⟩
    · obtain ⟨b, tail, htok, hb⟩ := number_cons n.ok
      refine ⟨b, tail, htok, ?_⟩
      rcases hb with rfl | hb
      · rfl
      · simp [isStart, hb]
    · exact ⟨QUOTE, _, rfl, rfl⟩

theorem text_pos (c : Cst) : 0 < c.text.length := by
  obtain ⟨b, tail, htext, -⟩ := text_cons c
  rw [htext]
  exact succ_pos _

@[simp] theorem skipWs_text (ws : Ws) (c : Cst) (rest : Bytes) : skipWs (ws.bytes ++ (c.text ++ rest)) = c.text ++ rest := by
  obtain ⟨b, tail, htext, hb⟩ := text_cons c
  rw [skipWs_append, htext, cons_append, skipWs_cons (isWs_of_isStart hb)]

/-! The head of a loop, at the text of what is left of a container. -/

theorem nextItem_elems_nil (ws : Ws) (seen : Bool) (rest : Bytes) :
    nextItem RBRACKET seen (Elems.nil.text ws seen ++ rest) = .ok (true, rest) := by
  rw [Elems.text, append_assoc, singleton_append, nextItem_close rfl]

theorem nextItem_elems_cons (pre : Ws) (val : Cst) (post : Ws) (es : Elems) (ws : Ws) (seen : Bool) (rest : Bytes) :
    nextItem RBRACKET seen ((Elems.cons pre val post es).text ws seen ++ rest) =
      .ok (false, val.text ++ (es.text post true ++ rest)) := by
  obtain ⟨b, tail, htext, hb⟩ := text_cons val
  have hitem := nextItem_item RBRACKET (by decide) (isWs_of_isStart hb) (ne_close_of_isStart hb).1 seen ws pre
    (tail ++ (es.text post true ++ rest))
  rw [← cons_append, ← htext] at hitem
  simpa only [Elems.text, append_assoc] using hitem

theorem nextItem_members_nil (ws : Ws) (seen : Bool) (rest : Bytes) :
    nextItem RBRACE seen (Members.nil.text ws seen ++ rest) = .ok (true, rest) := by
  rw [Members.text, append_assoc, singleton_append, nextItem_close rfl]

theorem nextItem_members_cons (pre : Ws) (key : StrTok) (mid gap : Ws) (val : Cst) (post : Ws) (ms : Members)
    (ws : Ws) (seen : Bool) (rest : Bytes) :
    nextItem RBRACE seen ((Members.cons pre key mid gap val post ms).text ws seen ++ rest) =
      .ok (false, key.text ++ (mid.bytes ++ (COLON :: (gap.bytes ++ (val.text ++ (ms.text post true ++ rest)))))) := by
  have hitem := nextItem_item RBRACE (b := QUOTE) (by decide) rfl (by decide) seen ws pre
    ((key.body ++ [QUOTE]) ++
      (mid.bytes ++ (COLON :: (gap.bytes ++ (val.text ++ (ms.text post true ++ rest))))))
  rw [← cons_append] at hitem
  simpa only [Members.text, StrTok.text, quoted, append_assoc, cons_append] using hitem

theorem expectColon (mid : Ws) (rest : Bytes) : expectByte (skipWs (mid.bytes ++ COLON :: rest)) COLON = .ok rest := by
  rw [skipWs_append, skipWs_cons rfl, expectByte_cons]

theorem skipValue_scalar (s : Scalar) (fuel depth : Nat) (ws : Ws) (hrest : Delimited rest) :
    skipValue (fuel + 1) (ws.bytes ++ (s.text ++ rest)) depth = .ok rest := by
  have hstart := skipWs_text ws (.scalar s) rest
  rw [Cst.text] at hstart
  rw [skipValue, hstart]
  rcases s with _ | (_ | _) | n | tok
  · exact skipLiteral_append NULL rest
  · exact skipLiteral_append FALSE rest
  · exact skipLiteral_append TRUE rest
  · obtain ⟨b, tail, htok, hb⟩ := number_cons n.ok
    have hnum : b ≠ LBRACE ∧ b ≠ LBRACKET ∧ b ≠ QUOTE ∧ b ≠ 116 ∧ b ≠ 102 ∧ b ≠ 110 := by
      refine ⟨?_, ?_, ?_, ?_, ?_, ?_⟩ <;> (rintro rfl; exact absurd hb (by decide))
    obtain ⟨h1, h2, h3, h4, h5, h6⟩ := hnum
    have hskip := skipNumber_append n.ok hrest.endsNumber
    simp only [Scalar.text]
    rw [htok] at hskip ⊢
    rw [cons_append, nextByte_cons, ok_bind, if_neg h1, if_neg h2, if_neg h3, if_neg h4, if_neg h5, if_neg h6,
      if_pos hb]
    exact hskip
  · exact skipString_tok tok rest

mutual

/-- A value within the nesting that is left is passed over, with the white space before it. -/
theorem skipValue_text (c : Cst) {fuel depth : Nat} (ws : Ws) {rest : Bytes} (hfuel : c.text.length ≤ fuel)
    (hdepth : c.depth ≤ depth) (hrest : Delimited rest) :
    skipValue fuel (ws.bytes ++ (c.text ++ rest)) depth = .ok rest := by
  match c, fuel, depth with
  | c, 0, _ =>
    obtain ⟨b, tail, htext, -⟩ := text_cons c
    rw [htext] at hfuel
    simp at hfuel
  | .scalar s, fuel + 1, depth => exact skipValue_scalar s fuel depth ws hrest
  | .array _ _, _, 0 => exact absurd hdepth (by simp [Cst.depth])
  | .object _ _, _, 0 => exact absurd hdepth (by simp [Cst.depth])
  | .array first es, fuel + 1, depth + 1 =>
    rw [skipValue, skipWs_text, Cst.text, cons_append]
    rw [Cst.text, length_cons] at hfuel
    rw [Cst.depth] at hdepth
    exact skipElems_text es first false rest (by omega) (by omega)
  | .object first ms, fuel + 1, depth + 1 =>
    rw [skipValue, skipWs_text, Cst.text, cons_append]
    rw [Cst.text, length_cons] at hfuel
    rw [Cst.depth] at hdepth
    exact skipMembers_text ms first false rest (by omega) (by omega)
  termination_by structural c

theorem skipElems_text (es : Elems) {fuel depth : Nat} (ws : Ws) (seen : Bool) (rest : Bytes)
    (hfuel : (es.text ws seen).length ≤ fuel) (hdepth : es.depth ≤ depth) :
    skipElems fuel (es.text ws seen ++ rest) depth seen = .ok rest := by
  match es, fuel with
  | .nil, 0 => exact absurd hfuel (by simp [Elems.text])
  | .nil, fuel + 1 =>
    rw [skipElems, nextItem_elems_nil]
    rfl
  | .cons pre val post es, fuel =>
    simp only [Elems.text, length_append] at hfuel
    rw [Elems.depth] at hdepth
    have hpos := text_pos val
    have htail := elems_text_pos es post
    match fuel with
    | 0 => omega
    | fuel + 1 =>
      have hval : skipValue fuel (val.text ++ (es.text post true ++ rest)) depth = .ok (es.text post true ++ rest) :=
        skipValue_text val .empty (by omega) (by omega) (delimited_elems es post rest)
      rw [skipElems, nextItem_elems_cons]
      simp only [ok_bind, false_eq_true, if_false, hval]
      exact skipElems_text es post true rest (by omega) (by omega)
  termination_by structural es

theorem skipMembers_text (ms : Members) {fuel depth : Nat} (ws : Ws) (seen : Bool) (rest : Bytes)
    (hfuel : (ms.text ws seen).length ≤ fuel) (hdepth : ms.depth ≤ depth) :
    skipMembers fuel (ms.text ws seen ++ rest) depth seen = .ok rest := by
  match ms, fuel with
  | .nil, 0 => exact absurd hfuel (by simp [Members.text])
  | .nil, fuel + 1 =>
    rw [skipMembers, nextItem_members_nil]
    rfl
  | .cons pre key mid gap val post ms, fuel =>
    simp only [Members.text, length_append, length_cons] at hfuel
    rw [Members.depth] at hdepth
    have htail := members_text_pos ms post
    match fuel with
    | 0 => omega
    | fuel + 1 =>
      rw [skipMembers, nextItem_members_cons]
      simp only [ok_bind, false_eq_true, if_false, skipString_tok, expectColon]
      rw [skipValue_text val gap (by omega) (by omega) (delimited_members ms post rest), ok_bind]
      exact skipMembers_text ms post true rest (by omega) (by omega)
  termination_by structural ms

end

theorem bumpDepth_eq_ok {depth' : Nat} (h : bumpDepth depth = .ok depth') : depth = depth' + 1 := by
  cases depth with
  | zero => cases h
  | succ n => rw [Except.ok.inj h]

theorem skipValue_eq_ok_cases {fuel : Nat} (h : skipValue (fuel + 1) input depth = .ok rest) :
    (∃ s : Scalar, skipWs input = s.text ++ rest) ∨
    (∃ tail depth', skipWs input = LBRACKET :: tail ∧ depth = depth' + 1 ∧ skipElems fuel tail depth' false = .ok rest) ∨
    (∃ tail depth', skipWs input = LBRACE :: tail ∧ depth = depth' + 1 ∧ skipMembers fuel tail depth' false = .ok rest) := by
  rw [skipValue] at h
  obtain ⟨b, hb, h⟩ := bind_eq_ok h
  split_ifs at h
  case pos =>
    obtain ⟨depth', hdepth, h⟩ := bind_eq_ok h
    obtain ⟨tail, htail, h⟩ := bind_eq_ok h
    exact .inr (.inr ⟨tail, depth', expectByte_eq_ok htail, bumpDepth_eq_ok hdepth, h⟩)
  case pos =>
    obtain ⟨depth', hdepth, h⟩ := bind_eq_ok h
    obtain ⟨tail, htail, h⟩ := bind_eq_ok h
    exact .inr (.inl ⟨tail, depth', expectByte_eq_ok htail, bumpDepth_eq_ok hdepth, h⟩)
  case pos =>
    obtain ⟨tok, htok⟩ := skipString_eq_ok h
    exact .inl ⟨.str tok, htok⟩
  case pos => exact .inl ⟨.bool true, skipLiteral_eq_ok h⟩
  case pos => exact .inl ⟨.bool false, skipLiteral_eq_ok h⟩
  case pos => exact .inl ⟨.null, skipLiteral_eq_ok h⟩
  case pos =>
    obtain ⟨n, hn⟩ := skipNumber_eq_ok h
    exact .inl ⟨.num n, hn⟩

/-- What has been passed over is a value within the nesting, and the same for the rest of an
array and of an object. -/
theorem skip_sound : ∀ fuel : Nat,
    (∀ {input rest : Bytes} {depth : Nat}, skipValue fuel input depth = .ok rest →
      ∃ (ws : Ws) (c : Cst), input = ws.bytes ++ (c.text ++ rest) ∧ c.depth ≤ depth) ∧
    (∀ {input rest : Bytes} {depth : Nat} {seen : Bool}, skipElems fuel input depth seen = .ok rest →
      ∃ (ws : Ws) (es : Elems), input = es.text ws seen ++ rest ∧ es.depth ≤ depth) ∧
    (∀ {input rest : Bytes} {depth : Nat} {seen : Bool}, skipMembers fuel input depth seen = .ok rest →
      ∃ (ws : Ws) (ms : Members), input = ms.text ws seen ++ rest ∧ ms.depth ≤ depth) := by
  intro fuel
  induction fuel with
  | zero => exact ⟨nofun, nofun, nofun⟩
  | succ fuel ih =>
    obtain ⟨ihValue, ihElems, ihMembers⟩ := ih
    refine ⟨?_, ?_, ?_⟩
    · intro input rest depth h
      obtain ⟨ws, hws, -⟩ := skipWs_spec input
      rcases skipValue_eq_ok_cases h with ⟨s, hs⟩ | ⟨tail, depth, htail, rfl, hloop⟩ | ⟨tail, depth, htail, rfl, hloop⟩
      · exact ⟨ws, .scalar s, by rw [hws, hs]; rfl, Nat.zero_le _⟩
      · obtain ⟨first, es, rfl, hdepth⟩ := ihElems hloop
        exact ⟨ws, .array first es, by rw [hws, htail]; rfl, Nat.succ_le_succ hdepth⟩
      · obtain ⟨first, ms, rfl, hdepth⟩ := ihMembers hloop
        exact ⟨ws, .object first ms, by rw [hws, htail]; rfl, Nat.succ_le_succ hdepth⟩
    · intro input rest depth seen h
      obtain ⟨⟨closed, left⟩, hitem, hbody⟩ := bind_eq_ok h
      rcases nextItem_eq_ok hitem with ⟨rfl, ws, rfl⟩ | ⟨rfl, ws, pre, rfl⟩
      · cases hbody
        exact ⟨ws, .nil, by simp [Elems.text], Nat.zero_le _⟩
      · obtain ⟨afterValue, hval, hrest⟩ := bind_eq_ok hbody
        obtain ⟨pre', val, rfl, hdepth⟩ := ihValue hval
        obtain ⟨post, es, rfl, hdepth'⟩ := ihElems hrest
        refine ⟨ws, .cons (pre.append pre') val post es, ?_, Nat.max_le.2 ⟨hdepth, hdepth'⟩⟩
        simp only [Elems.text, Ws.append, List.append_assoc]
    · intro input rest depth seen h
      obtain ⟨⟨closed, left⟩, hitem, hbody⟩ := bind_eq_ok h
      rcases nextItem_eq_ok hitem with ⟨rfl, ws, rfl⟩ | ⟨rfl, ws, pre, rfl⟩
      · cases hbody
        exact ⟨ws, .nil, by simp [Members.text], Nat.zero_le _⟩
      · obtain ⟨afterKey, hkey, hcolon⟩ := bind_eq_ok hbody
        obtain ⟨afterColon, hcolon, hval⟩ := bind_eq_ok hcolon
        obtain ⟨afterValue, hval, hrest⟩ := bind_eq_ok hval
        obtain ⟨key, rfl⟩ := skipString_eq_ok hkey
        obtain ⟨mid, hmid, -⟩ := skipWs_spec afterKey
        obtain ⟨gap, val, rfl, hdepth⟩ := ihValue hval
        obtain ⟨post, ms, rfl, hdepth'⟩ := ihMembers hrest
        refine ⟨ws, .cons pre key mid gap val post ms, ?_, Nat.max_le.2 ⟨hdepth, hdepth'⟩⟩
        rw [hmid, expectByte_eq_ok hcolon]
        simp only [Members.text, List.append_assoc, List.cons_append]

/-! ## One text, one tree -/

/-- Two values at the start of the same bytes have the same text. -/
theorem text_unique (hrest : Delimited rest) (hrest' : Delimited rest') (h : c.text ++ rest = c'.text ++ rest') :
    c.text = c'.text ∧ rest = rest' := by
  have hskip : skipValue (max c.text.length c'.text.length) (c.text ++ rest) (max c.depth c'.depth) = .ok rest :=
    skipValue_text c .empty (le_max_left _ _) (le_max_left _ _) hrest
  have hskip' : skipValue (max c.text.length c'.text.length) (c'.text ++ rest') (max c.depth c'.depth) = .ok rest' :=
    skipValue_text c' .empty (le_max_right _ _) (le_max_right _ _) hrest'
  rw [h, hskip'] at hskip
  cases hskip
  exact ⟨append_cancel_right h, rfl⟩

theorem strTok_text_inj (h : tok.text ++ rest = tok'.text ++ rest') : tok.text = tok'.text ∧ rest = rest' := by
  have hskip := skipString_tok tok rest
  rw [h, skipString_tok] at hskip
  cases hskip
  exact ⟨append_cancel_right h, rfl⟩

theorem scalar_text_ne (s : Scalar) {tail : Bytes} (hb : b = LBRACKET ∨ b = LBRACE) : s.text ≠ b :: tail := by
  intro h
  rcases s with _ | (_ | _) | n | tok
  case num =>
    obtain ⟨b', tail', htok, hb'⟩ := number_cons n.ok
    obtain ⟨rfl, -⟩ := cons.inj (htok.symm.trans h)
    rcases hb with rfl | rfl <;> exact absurd hb' (by decide)
  all_goals
    obtain ⟨rfl, -⟩ := cons.inj h
    exact absurd hb (by decide)

theorem strTok_ext (h : tok.text = tok'.text) : tok = tok' := by
  obtain ⟨body, hbody⟩ := tok
  obtain ⟨body', hbody'⟩ := tok'
  obtain rfl : body = body' := append_cancel_right (cons.inj h).2
  rfl

theorem scalar_text_unique {s s' : Scalar} (h : s.text = s'.text) : s = s' := by
  -- the first byte tells which kind of scalar it is
  have hnum : ∀ (n : Json.Num) {b : UInt8} {tail : Bytes}, n.tok = b :: tail → b = MINUS ∨ isDigit b = true := by
    intro n b tail htok
    obtain ⟨b', tail', htok', hb⟩ := number_cons n.ok
    obtain ⟨rfl, -⟩ := cons.inj (htok.symm.trans htok')
    exact hb
  rcases s with _ | (_ | _) | n | tok <;> rcases s' with _ | (_ | _) | n' | tok' <;>
    first
    | rfl
    | cases h
    | exact absurd (hnum n h) (by decide)
    | exact absurd (hnum n' h.symm) (by decide)
    | cases h
    | skip
  · rw [Json.Num.ext h]
  · rw [strTok_ext h]

mutual

/-- Two syntax trees with the same text differ in where the white space stands. -/
theorem strip_unique (c c' : Cst) (h : c.text = c'.text) : c.strip = c'.strip := by
  match c, c' with
  | .scalar s, .scalar s' => rw [scalar_text_unique h]
  | .array ws es, .array ws' es' =>
    rw [Cst.strip, Cst.strip, elems_strip_unique es es' ws ws' false (cons.inj h).2]
  | .object ws ms, .object ws' ms' =>
    rw [Cst.strip, Cst.strip, members_strip_unique ms ms' ws ws' false (cons.inj h).2]
  | .array _ _, .object _ _ => exact absurd (cons.inj h).1 (by decide)
  | .object _ _, .array _ _ => exact absurd (cons.inj h).1 (by decide)
  | .scalar s, .array _ _ => exact absurd h (scalar_text_ne s (.inl rfl))
  | .scalar s, .object _ _ => exact absurd h (scalar_text_ne s (.inr rfl))
  | .array _ _, .scalar s => exact absurd h.symm (scalar_text_ne s (.inl rfl))
  | .object _ _, .scalar s => exact absurd h.symm (scalar_text_ne s (.inr rfl))
  termination_by structural c

theorem elems_strip_unique (es es' : Elems) (ws ws' : Ws) (seen : Bool)
    (h : es.text ws seen = es'.text ws' seen) : es.strip = es'.strip := by
  have hitem : nextItem RBRACKET seen (es.text ws seen ++ []) = nextItem RBRACKET seen (es'.text ws' seen ++ []) := by
    rw [h]
  match es, es' with
  | .nil, .nil => rfl
  | .nil, .cons pre' val' post' es' =>
    rw [nextItem_elems_nil, nextItem_elems_cons] at hitem
    cases hitem
  | .cons pre val post es, .nil =>
    rw [nextItem_elems_nil, nextItem_elems_cons] at hitem
    cases hitem
  | .cons pre val post es, .cons pre' val' post' es' =>
    rw [nextItem_elems_cons, nextItem_elems_cons] at hitem
    have htail := (Prod.mk.inj (Except.ok.inj hitem)).2
    obtain ⟨hval, hrest⟩ := text_unique (delimited_elems es post []) (delimited_elems es' post' []) htail
    rw [Elems.strip, Elems.strip, strip_unique val val' hval,
      elems_strip_unique es es' post post' true (append_cancel_right hrest)]
  termination_by structural es

theorem members_strip_unique (ms ms' : Members) (ws ws' : Ws) (seen : Bool)
    (h : ms.text ws seen = ms'.text ws' seen) : ms.strip = ms'.strip := by
  have hitem : nextItem RBRACE seen (ms.text ws seen ++ []) = nextItem RBRACE seen (ms'.text ws' seen ++ []) := by
    rw [h]
  match ms, ms' with
  | .nil, .nil => rfl
  | .nil, .cons .. =>
    rw [nextItem_members_nil, nextItem_members_cons] at hitem
    cases hitem
  | .cons .., .nil =>
    rw [nextItem_members_nil, nextItem_members_cons] at hitem
    cases hitem
  | .cons pre key mid gap val post ms, .cons pre' key' mid' gap' val' post' ms' =>
    rw [nextItem_members_cons, nextItem_members_cons] at hitem
    have htail := (Prod.mk.inj (Except.ok.inj hitem)).2
    obtain ⟨hkey, hcolon⟩ := strTok_text_inj htail
    have hafter := congrArg (fun bytes => expectByte (skipWs bytes) COLON) hcolon
    simp only [expectColon] at hafter
    have hval := congrArg skipWs (Except.ok.inj hafter)
    rw [skipWs_text, skipWs_text] at hval
    obtain ⟨hval, hrest⟩ := text_unique (delimited_members ms post []) (delimited_members ms' post' []) hval
    rw [Members.strip, Members.strip, strTok_ext hkey, strip_unique val val' hval,
      members_strip_unique ms ms' post post' true (append_cancel_right hrest)]
  termination_by structural ms

end

theorem distinct_unique (dec : Bytes → Option String) (h : c.text = c'.text) : c.distinct dec = c'.distinct dec := by
  rw [← distinct_strip, strip_unique c c' h, distinct_strip]

theorem tree_unique (dec : Bytes → Option String) (h : c.text = c'.text) : c.tree dec = c'.tree dec := by
  rw [← tree_strip, strip_unique c c' h, tree_strip]

/-! ## Documents -/

theorem skipBom_text (h : TextOf bytes c) : ∃ before after : Ws, skipBom bytes = before.bytes ++ (c.text ++ after.bytes) := by
  obtain ⟨mark, before, after, rfl⟩ := h
  refine ⟨before, after, ?_⟩
  cases mark with
  | true =>
    have hbom : BOM.isPrefixOf (BOM ++ (before.bytes ++ (c.text ++ after.bytes))) = true := by simp
    simp only [if_true, skipBom, hbom, List.drop_left]
  | false =>
    have hbom : BOM.isPrefixOf (before.bytes ++ (c.text ++ after.bytes)) = false := by
      obtain ⟨b, tail, htext, hb⟩ := text_cons c
      rcases hbefore : before.bytes with _ | ⟨w, ws⟩
      · rw [htext, List.nil_append, List.cons_append, BOM, List.isPrefixOf]
        have hne : (0xEF == b) = false := beq_false_of_ne (by rintro rfl; cases hb)
        rw [hne, Bool.false_and]
      · have hw := before.ok w (by rw [hbefore]; exact .head _)
        have hne : (0xEF == w) = false := beq_false_of_ne (by rintro rfl; cases hw)
        rw [List.cons_append, BOM, List.isPrefixOf, hne, Bool.false_and]
    simp only [Bool.false_eq_true, if_false, List.nil_append, skipBom, hbom]

theorem textOf_of_skipBom {before after : Ws} (h : skipBom bytes = before.bytes ++ (c.text ++ after.bytes)) :
    TextOf bytes c := by
  rw [skipBom] at h
  split at h
  case isTrue hbom =>
    obtain ⟨tail, rfl⟩ := isPrefixOf_iff_prefix.1 hbom
    rw [drop_left] at h
    exact ⟨true, before, after, by rw [h]; rfl⟩
  case isFalse => exact ⟨false, before, after, h⟩

theorem delimited_ws (ws : Ws) : Delimited ws.bytes := by
  have h : Delimited (ws.bytes ++ []) := delimited_ws_append delimited_nil
  rwa [append_nil] at h

theorem textOf_unique (h : TextOf bytes c) (h' : TextOf bytes c') : c.text = c'.text := by
  obtain ⟨before, after, htext⟩ := skipBom_text h
  obtain ⟨before', after', htext'⟩ := skipBom_text h'
  have heq := congrArg skipWs (htext.symm.trans htext')
  rw [skipWs_text, skipWs_text] at heq
  exact (text_unique (delimited_ws after) (delimited_ws after') heq).1

theorem parses_iff {dec : Bytes → Option String} (h : TextOf bytes c) (t : Tree) :
    Parses dec bytes t ↔ c.tree dec = some t := by
  constructor
  · rintro ⟨c', h', htree⟩
    rw [tree_unique dec (textOf_unique h h'), htree]
  · intro htree
    exact ⟨c, h, htree⟩

end Praxis.JsonOps
