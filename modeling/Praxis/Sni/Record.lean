/-
The record layer. A `ClientHello` is read from the first record when it lies in it, and is otherwise put
together from consecutive handshake records, either from the start of the buffer each time or by a
reassembler that goes on where the last buffer ended. Whichever way is taken, the answer is the one of
a single scan over the records.
-/
import Praxis.Sni.Hello

namespace Praxis.Sni

open List Option

open Praxis.Lib (Pass loop loop_succ_again loop_succ_stop loop_returns loop_mono loop_eq_of_measure loop_stops ok_bind
  error_bind bind_eq_ok)
open Praxis.Lib.Wire

/-! ## Records -/

def contentTypeHandshake : UInt8 := 22

def handshakeTypeClientHello : UInt8 := 1

def tlsRecordHeaderLen : Nat := 5

def handshakeHeaderLen : Nat := 4

/-- Bytes that must have arrived. -/
def arrived {α : Type} (found : Option α) : Except SniParseError α := found.elim (.error .needMoreData) .ok

variable (buf : List UInt8)

def parseRecordHeader : Except SniParseError (List UInt8) :=
  if buf.length < tlsRecordHeaderLen then .error .tooShort
  else do
    let contentType ← buf.head?.elim (.error .tooShort) .ok
    if contentType ≠ contentTypeHandshake then .error .notHandshake
    else
      let recordLen ← readU16 buf 3
      arrived (slice? buf tlsRecordHeaderLen (tlsRecordHeaderLen + recordLen))

def parseHandshakeHeader (fragment : List UInt8) : Except SniParseError (List UInt8) :=
  if fragment.length < handshakeHeaderLen then .error .needMoreData
  else do
    let handshakeType ← arrived fragment.head?
    if handshakeType ≠ handshakeTypeClientHello then .error .notClientHello
    else
      let hsLen ← readU24 fragment 1
      arrived (slice? fragment handshakeHeaderLen (handshakeHeaderLen + hsLen))

/-- `handshake_record_fragment`: the fragment of the record at `pos`, and where the next one starts. -/
def handshakeRecordFragment (pos : Nat) : Except SniParseError (List UInt8 × Nat) := do
  let recordHeader ← arrived (slice? buf pos (pos + tlsRecordHeaderLen))
  let contentType ← arrived recordHeader.head?
  if contentType ≠ contentTypeHandshake then .error .notHandshake
  else
    let recordLen ← readU16 recordHeader 3
    let fragment ← arrived (slice? buf (pos + tlsRecordHeaderLen) (pos + tlsRecordHeaderLen + recordLen))
    .ok (fragment, pos + tlsRecordHeaderLen + recordLen)

/-! ## Reassembly -/

/-- `SniReassembler`; `header` has the filled bytes of the handshake header. -/
structure SniReassembler where
  pos : Nat
  header : List UInt8
  body : List UInt8
deriving Repr, DecidableEq

namespace SniReassembler

def new : SniReassembler := { pos := 0, header := [], body := [] }

/-- `fill_handshake_header`, and the rest of the fragment for the body. -/
def take (r : SniReassembler) (fragment : List UInt8) (nextPos : Nat) : SniReassembler :=
  let count := min fragment.length (handshakeHeaderLen - r.header.length)
  { pos := nextPos, header := r.header ++ fragment.take count, body := r.body ++ fragment.drop count }

end SniReassembler

/-- How reassembly ends: with the body of the hello, with an error, or out of bytes. -/
inductive Outcome where
  | complete (body : List UInt8)
  | failed (error : SniParseError)
  | incomplete (error : SniParseError) (r : SniReassembler)
deriving Repr, DecidableEq

/-- An error at a record: missing bytes may still arrive, anything else is final. -/
def Outcome.ofError (r : SniReassembler) : SniParseError → Outcome
  | .needMoreData => .incomplete .needMoreData r
  | .tooShort => .incomplete .tooShort r
  | error => .failed error

/-- Whether the hello is complete, once the handshake header says how long it is. -/
def SniReassembler.check (r : SniReassembler) : Pass SniReassembler Outcome :=
  if r.header.length = handshakeHeaderLen then
    if r.header.head? ≠ some handshakeTypeClientHello then .stop (.failed .notClientHello)
    else
      match readU24 r.header 1 with
      | .error error => .stop (.failed error)
      | .ok hsLen => if hsLen ≤ r.body.length then .stop (.complete (r.body.take hsLen)) else .again r
  else .again r

/-- One record, in the loop that `reassemble_handshake` and `advance` share. -/
def absorb (r : SniReassembler) : Pass SniReassembler Outcome :=
  match handshakeRecordFragment buf r.pos with
  | .error error => .stop (.ofError r error)
  | .ok (fragment, nextPos) => (r.take fragment nextPos).check

/-- The loop over the records from where the reassembler is. -/
def scanFrom (r : SniReassembler) : Option Outcome := loop (absorb buf) (buf.length + 1) r

def reassembleHandshake : Except SniParseError (List UInt8) :=
  match scanFrom buf .new with
  | some (.complete body) => .ok body
  | some (.failed error) => .error error
  | some (.incomplete error _) => .error error
  | none => .error .needMoreData

def parseSni : Except SniParseError ClientHelloInfo := do
  let fragment ← parseRecordHeader buf
  match parseHandshakeHeader fragment with
  | .ok helloBody => parseClientHello helloBody
  | .error .needMoreData => do
    let helloBody ← reassembleHandshake buf
    parseClientHello helloBody
  | .error error => .error error

/-- `SniReassembler::advance`; after a result or an error the reassembler is not used again. -/
def SniReassembler.advance (r : SniReassembler) (buf : List UInt8) :
    Except SniParseError (Option ClientHelloInfo) × SniReassembler :=
  match scanFrom buf r with
  | some (.complete body) => ((parseClientHello body).map some, r)
  | some (.failed error) => (.error error, r)
  | some (.incomplete _ r') => (.ok none, r')
  | none => (.ok none, r)

/-! ## More bytes -/

theorem arrived_eq_ok {α : Type} {found : Option α} {a : α} (h : arrived found = .ok a) : found = some a := by
  cases found with
  | none => cases h
  | some b => rw [Except.ok.inj h]

variable {buf : List UInt8} {r r' : SniReassembler} {res : Outcome}
  {fragment : List UInt8} {error : SniParseError}

theorem fragment_bounds {pos nextPos : Nat} (h : handshakeRecordFragment buf pos = .ok (fragment, nextPos)) :
    pos < nextPos ∧ nextPos ≤ buf.length := by
  obtain ⟨recordHeader, -, h⟩ := bind_eq_ok h
  obtain ⟨contentType, -, h⟩ := bind_eq_ok h
  split at h
  · cases h
  · obtain ⟨recordLen, -, h⟩ := bind_eq_ok h
    obtain ⟨found, hfound, h⟩ := bind_eq_ok h
    obtain ⟨hle, hlen, -⟩ := length_of_slice? (arrived_eq_ok hfound)
    cases h
    simp only [tlsRecordHeaderLen] at hle hlen ⊢
    omega

/-- Unless bytes are missing, more bytes make no difference to a record. -/
theorem fragment_append (buf more : List UInt8) (pos : Nat) :
    handshakeRecordFragment buf pos = .error .needMoreData ∨
      handshakeRecordFragment (buf ++ more) pos = handshakeRecordFragment buf pos := by
  unfold handshakeRecordFragment
  cases hheader : slice? buf pos (pos + tlsRecordHeaderLen) with
  | none => exact .inl rfl
  | some recordHeader =>
    rw [slice?_append hheader]
    simp only [arrived, elim_some, ok_bind]
    cases recordHeader.head? with
    | none => exact .inl rfl
    | some contentType =>
      simp only [elim_some, ok_bind]
      split
      · exact .inr rfl
      · cases readU16 recordHeader 3 with
        | error e => exact .inr rfl
        | ok recordLen =>
          simp only [ok_bind]
          cases hfragment : slice? buf (pos + tlsRecordHeaderLen) (pos + tlsRecordHeaderLen + recordLen) with
          | none => exact .inl rfl
          | some fragment =>
            rw [slice?_append hfragment]
            exact .inr rfl

/-- Unless bytes are missing, more bytes make no difference to a pass. -/
theorem absorb_append (buf more : List UInt8) (r : SniReassembler) :
    absorb buf r = .stop (.incomplete .needMoreData r) ∨ absorb (buf ++ more) r = absorb buf r := by
  rcases fragment_append buf more r.pos with h | h
  · exact .inl (by rw [absorb, h]; rfl)
  · exact .inr (by rw [absorb, h, absorb])

/-- The check goes on with the reassembler as it is, or has an answer. -/
theorem check_cases (r : SniReassembler) : r.check = .again r ∨ (∃ body, r.check = .stop (.complete body)) ∨
    ∃ error, r.check = .stop (.failed error) := by
  unfold SniReassembler.check
  split
  · split
    · exact .inr (.inr ⟨_, rfl⟩)
    · split
      · exact .inr (.inr ⟨_, rfl⟩)
      · split
        · exact .inr (.inl ⟨_, rfl⟩)
        · exact .inl rfl
  · exact .inl rfl

theorem absorb_again (h : absorb buf r = .again r') :
    ∃ fragment nextPos, handshakeRecordFragment buf r.pos = .ok (fragment, nextPos) ∧ r' = r.take fragment nextPos := by
  unfold absorb at h
  split at h
  · cases h
  · rename_i fragment nextPos hfragment
    refine ⟨fragment, nextPos, hfragment, ?_⟩
    rcases check_cases (r.take fragment nextPos) with hcheck | ⟨body, hcheck⟩ | ⟨error, hcheck⟩ <;> rw [hcheck] at h <;> cases h
    rfl

/-- Only a pass that lacks bytes stops without an answer, and it leaves the reassembler as it was. -/
theorem absorb_incomplete (h : absorb buf r = .stop (.incomplete error r')) :
    r' = r ∧ (error = .tooShort ∨ error = .needMoreData) := by
  unfold absorb at h
  split at h
  · rename_i found _
    cases found <;> cases h
    · exact ⟨rfl, .inl rfl⟩
    · exact ⟨rfl, .inr rfl⟩
  · rename_i fragment nextPos _
    rcases check_cases (r.take fragment nextPos) with hcheck | ⟨body, hcheck⟩ | ⟨error, hcheck⟩ <;> rw [hcheck] at h <;> cases h

theorem absorb_further (h : absorb buf r = .again r') : True ∧ buf.length - r'.pos < buf.length - r.pos := by
  obtain ⟨fragment, nextPos, hfragment, rfl⟩ := absorb_again h
  obtain ⟨hlt, hle⟩ := fragment_bounds hfragment
  refine ⟨trivial, ?_⟩
  show buf.length - nextPos < _
  omega

/-- Every scan ends, and with as much fuel as the buffer has bytes. -/
theorem scanFrom_returns (buf : List UInt8) (r : SniReassembler) : ∃ res, scanFrom buf r = some res :=
  loop_returns (I := fun _ => True) (fun r => buf.length - r.pos) (fun _ _ _ h => absorb_further h) trivial (by omega)

theorem scanFrom_of_loop {m : Nat} (h : loop (absorb buf) m r = some res) : scanFrom buf r = some res :=
  loop_eq_of_measure (I := fun _ => True) (fun r => buf.length - r.pos) (fun _ _ _ h => absorb_further h) trivial
    (by omega) h

/-- Where the scan of a buffer stopped, the scan of a longer one comes by. -/
theorem scanFrom_append (h : scanFrom buf r = some res) (more : List UInt8) :
    ∃ r', absorb buf r' = .stop res ∧ scanFrom (buf ++ more) r = scanFrom (buf ++ more) r' := by
  have hother : ∀ a a', absorb buf a = .again a' → absorb (buf ++ more) a = .again a' := by
    intro a a' ha
    rcases absorb_append buf more a with h | h
    · rw [ha] at h
      cases h
    · rw [h, ha]
  obtain ⟨r', k, hstop, hk⟩ := loop_stops hother h
  obtain ⟨final, hfinal⟩ := scanFrom_returns (buf ++ more) r'
  exact ⟨r', hstop, (scanFrom_of_loop ((hk _).trans hfinal)).trans hfinal.symm⟩

/-- A reassembler that ran out of bytes goes on as if it had had them. -/
theorem scanFrom_resume (h : scanFrom buf r = some (.incomplete error r')) (more : List UInt8) :
    scanFrom (buf ++ more) r = scanFrom (buf ++ more) r' := by
  obtain ⟨stopped, hstop, heq⟩ := scanFrom_append h more
  rw [heq, (absorb_incomplete hstop).1]

theorem scanFrom_answer (h : scanFrom buf r = some res) (hanswer : ∀ error r', res ≠ .incomplete error r')
    (more : List UInt8) : scanFrom (buf ++ more) r = some res := by
  obtain ⟨stopped, hstop, heq⟩ := scanFrom_append h more
  rw [heq, scanFrom, loop_succ_stop]
  rcases absorb_append buf more stopped with hwait | hsame
  · rw [hstop] at hwait
    cases hwait
    exact absurd rfl (hanswer _ _)
  · rw [hsame, hstop]

/-! ## One answer -/

/-- The answer to an outcome, if it is one. -/
def Outcome.answer : Outcome → Option (Except SniParseError ClientHelloInfo)
  | .complete body => some (parseClientHello body)
  | .failed error => some (.error error)
  | .incomplete _ _ => none

theorem parseRecordHeader_eq (h : tlsRecordHeaderLen ≤ buf.length) :
    parseRecordHeader buf = (handshakeRecordFragment buf 0).map Prod.fst := by
  match buf, h with
  | contentType :: v :: v' :: high :: low :: rest, h =>
    have hheader : slice? (contentType :: v :: v' :: high :: low :: rest) 0 (0 + tlsRecordHeaderLen) =
        some [contentType, v, v', high, low] := by
      exact slice?_eq_some_iff.2 ⟨⟨Nat.zero_le _, h⟩, rfl⟩
    rw [parseRecordHeader, if_neg (Nat.not_lt.2 h), handshakeRecordFragment, hheader]
    simp only [arrived, List.head?_cons, Option.elim_some, ok_bind, readU16, nat16?, List.drop_succ_cons, List.drop_zero,
      Nat.zero_add]
    split
    · rfl
    · cases slice? _ _ _ <;> rfl

theorem check_header {handshakeType high mid low : UInt8} (h : r.header = [handshakeType, high, mid, low]) : r.check =
      if handshakeType ≠ handshakeTypeClientHello then .stop (.failed .notClientHello)
      else if high.toNat * 65536 + mid.toNat * 256 + low.toNat ≤ r.body.length then
        .stop (.complete (r.body.take (high.toNat * 65536 + mid.toNat * 256 + low.toNat)))
      else .again r := by
  have hread : readU24 r.header 1 = .ok (high.toNat * 65536 + mid.toNat * 256 + low.toNat) := by rw [h]; rfl
  have hlen : r.header.length = handshakeHeaderLen := by rw [h]; rfl
  have hhead : r.header.head? ≠ some handshakeTypeClientHello ↔ handshakeType ≠ handshakeTypeClientHello := by simp [h]
  simp only [SniReassembler.check, if_pos hlen, hread, hhead]

/-- A hello that lies in the first record is complete once the record is taken. -/
theorem check_new (fragment : List UInt8) (nextPos : Nat) :
    parseHandshakeHeader fragment = .error .needMoreData ∨
      ∃ res, (SniReassembler.new.take fragment nextPos).check = .stop res ∧
        res.answer = some (parseHandshakeHeader fragment >>= parseClientHello) := by
  match fragment with
  | [] | [_] | [_, _] | [_, _, _] => exact .inl rfl
  | handshakeType :: high :: mid :: low :: rest =>
    have htake : SniReassembler.new.take (handshakeType :: high :: mid :: low :: rest) nextPos =
        { pos := nextPos, header := [handshakeType, high, mid, low], body := rest } := by
      simp [SniReassembler.take, SniReassembler.new, handshakeHeaderLen]
    have hlen : ¬ (handshakeType :: high :: mid :: low :: rest).length < handshakeHeaderLen := by
      simp [handshakeHeaderLen]
    have hread : readU24 (handshakeType :: high :: mid :: low :: rest) 1 =
        .ok (high.toNat * 65536 + mid.toNat * 256 + low.toNat) := rfl
    rw [htake, check_header rfl, parseHandshakeHeader, if_neg hlen, hread]
    generalize high.toNat * 65536 + mid.toNat * 256 + low.toNat = hsLen
    simp only [arrived, List.head?_cons, Option.elim_some, ok_bind]
    by_cases htype : handshakeType = handshakeTypeClientHello
    · simp only [if_neg (not_not.2 htype)]
      by_cases hbody : hsLen ≤ rest.length
      · have hslice : slice? (handshakeType :: high :: mid :: low :: rest) handshakeHeaderLen (handshakeHeaderLen + hsLen) =
            some (rest.take hsLen) := by
          refine slice?_eq_some_iff.2 ⟨⟨Nat.le_add_right _ _, ?_⟩, ?_⟩
          · simp only [handshakeHeaderLen, List.length_cons]
            omega
          · rw [List.drop_take, Nat.add_sub_cancel_left]
            rfl
        rw [if_pos hbody, hslice]
        exact .inr ⟨_, rfl, rfl⟩
      · have hslice : slice? (handshakeType :: high :: mid :: low :: rest) handshakeHeaderLen (handshakeHeaderLen + hsLen) =
            none := by
          refine if_neg fun h => ?_
          simp only [handshakeHeaderLen, List.length_cons] at h
          omega
        rw [hslice]
        exact .inl rfl
    · simp only [if_pos htype]
      exact .inr ⟨_, rfl, rfl⟩

theorem reassemble_of_scan (h : scanFrom buf .new = some res) :
    res.answer = some (reassembleHandshake buf >>= parseClientHello) ∨
      res.answer = none ∧ (reassembleHandshake buf = .error .tooShort ∨ reassembleHandshake buf = .error .needMoreData) := by
  rw [reassembleHandshake, h]
  cases res with
  | complete | failed => exact .inl rfl
  | incomplete error r =>
    obtain ⟨_, hstop, -⟩ := scanFrom_append h []
    exact .inr ⟨rfl, (absorb_incomplete hstop).2.imp (congrArg _) (congrArg _)⟩

/-- `parse_sni` gives the answer of the scan, and asks for more bytes when the scan has none. -/
theorem parseSni_of_scan (h : scanFrom buf .new = some res) :
    res.answer = some (parseSni buf) ∨
      res.answer = none ∧ (parseSni buf = .error .tooShort ∨ parseSni buf = .error .needMoreData) := by
  have hfirst : ∀ res', absorb buf .new = .stop res' → res = res' := by
    intro res' hstop
    rw [scanFrom, loop_succ_stop hstop] at h
    exact (Option.some.inj h).symm
  by_cases hlen : buf.length < tlsRecordHeaderLen
  · have hshort : handshakeRecordFragment buf SniReassembler.new.pos = .error .needMoreData := by
      have : slice? buf 0 (0 + tlsRecordHeaderLen) = none := if_neg fun h => by omega
      rw [handshakeRecordFragment, show SniReassembler.new.pos = 0 from rfl, this]
      rfl
    rw [hfirst (.ofError .new .needMoreData) (by rw [absorb, hshort]), parseSni, parseRecordHeader, if_pos hlen]
    exact .inr ⟨rfl, .inl rfl⟩
  · rw [parseSni, parseRecordHeader_eq (Nat.not_lt.1 hlen)]
    cases hfragment : handshakeRecordFragment buf 0 with
    | error error =>
      rw [hfirst (.ofError .new error) (by rw [absorb, show SniReassembler.new.pos = 0 from rfl, hfragment])]
      cases error
      case tooShort => exact .inr ⟨rfl, .inl rfl⟩
      case needMoreData => exact .inr ⟨rfl, .inr rfl⟩
      all_goals exact .inl rfl
    | ok found =>
      obtain ⟨fragment, nextPos⟩ := found
      have habsorb : absorb buf .new = (SniReassembler.new.take fragment nextPos).check := by
        rw [absorb, show SniReassembler.new.pos = 0 from rfl, hfragment]
      simp only [Except.map, ok_bind]
      by_cases hmore : parseHandshakeHeader fragment = .error .needMoreData
      · rw [hmore]
        refine (reassemble_of_scan h).imp id (And.imp id (Or.imp ?_ ?_)) <;> intro herror <;> rw [herror] <;> rfl
      · obtain ⟨res', hcheck, hanswer⟩ := (check_new fragment nextPos).resolve_left hmore
        rw [hfirst res' (habsorb.trans hcheck), hanswer]
        cases hheader : parseHandshakeHeader fragment with
        | ok helloBody => exact .inl rfl
        | error error =>
          rw [hheader] at hmore
          cases error
          case needMoreData => cases hmore rfl
          all_goals exact .inl rfl

/-! ## Cut into records -/

/-- A handshake record. -/
structure Record where
  version : UInt8 × UInt8
  fragment : List UInt8
  size : fragment.length < 65536

def Record.encode (record : Record) : List UInt8 :=
  contentTypeHandshake :: record.version.1 :: record.version.2 :: field16 record.fragment

/-- The handshake message of a hello. -/
def ClientHello.message (hello : ClientHello) : List UInt8 :=
  handshakeTypeClientHello :: be24 hello.body.length ++ hello.body

/-- The records carry the message of the hello, cut anywhere. -/
def ClientHello.CutInto (hello : ClientHello) (records : List Record) : Prop :=
  records.flatMap Record.fragment = hello.message

/-- The record at the position, between what stands before it and what stands after it. -/
theorem fragment_between (record : Record) (before after : List UInt8) :
    handshakeRecordFragment (before ++ (record.encode ++ after)) before.length =
      .ok (record.fragment, (before ++ record.encode).length) := by
  obtain ⟨version, fragment, hsize⟩ := record
  have hheader : slice? (before ++ (Record.encode ⟨version, fragment, hsize⟩ ++ after)) before.length
      (before.length + tlsRecordHeaderLen) =
        some (contentTypeHandshake :: version.1 :: version.2 :: be16 fragment.length) :=
    slice?_between before (fragment ++ after) (by simp [Record.encode, field16]) rfl rfl
  have hlen : readU16 (contentTypeHandshake :: version.1 :: version.2 :: be16 fragment.length) 3 = .ok fragment.length :=
    readU16_between [contentTypeHandshake, version.1, version.2] [] (by simp) rfl hsize
  have hfragment : slice? (before ++ (Record.encode ⟨version, fragment, hsize⟩ ++ after))
      (before.length + tlsRecordHeaderLen) (before.length + tlsRecordHeaderLen + fragment.length) = some fragment :=
    slice?_between (before ++ contentTypeHandshake :: version.1 :: version.2 :: be16 fragment.length) after (by simp [Record.encode, field16]) (by simp [tlsRecordHeaderLen]) rfl
  have hnext : before.length + tlsRecordHeaderLen + fragment.length =
      (before ++ Record.encode ⟨version, fragment, hsize⟩).length := by
    simp [Record.encode, tlsRecordHeaderLen]
    omega
  rw [handshakeRecordFragment, hheader]
  simp only [arrived, elim_some, ok_bind, head?_cons, ne_eq, not_true_eq_false, if_false, hlen, hfragment]
  rw [hnext]

/-- The reassembler after it took the bytes given. -/
def SniReassembler.holding (pos : Nat) (bytes : List UInt8) : SniReassembler :=
  { pos, header := bytes.take handshakeHeaderLen, body := bytes.drop handshakeHeaderLen }

theorem take_holding (pos nextPos : Nat) (bytes : List UInt8) :
    (SniReassembler.holding pos bytes).take fragment nextPos = .holding nextPos (bytes ++ fragment) := by
  have hcount : handshakeHeaderLen - (bytes.take handshakeHeaderLen).length = handshakeHeaderLen - bytes.length := by
    rw [List.length_take]
    omega
  simp only [SniReassembler.take, SniReassembler.holding, hcount, List.take_append, List.drop_append,
    SniReassembler.mk.injEq, List.append_cancel_left_eq, true_and]
  rw [Nat.min_comm]
  exact ⟨List.take_eq_take_min.symm, List.drop_eq_drop_min.symm⟩

/-- While bytes of the message are missing reassembly goes on, and it is complete with the last one. -/
theorem check_holding {hello : ClientHello} {bytes rest : List UInt8} (h : bytes ++ rest = hello.message) (pos : Nat) :
    (SniReassembler.holding pos bytes).check =
      if rest = [] then .stop (.complete hello.body) else .again (.holding pos bytes) := by
  have hlong : handshakeHeaderLen ≤ (bytes ++ rest).length := by
    rw [h]
    simp [ClientHello.message, be24, handshakeHeaderLen]
  by_cases hheader : bytes.length < handshakeHeaderLen
  · have hrest : rest ≠ [] := by
      rintro rfl
      rw [List.append_nil] at hlong
      omega
    have hlen : ¬ (SniReassembler.holding pos bytes).header.length = handshakeHeaderLen := by
      rw [SniReassembler.holding, List.length_take]
      omega
    rw [if_neg hrest, SniReassembler.check, if_neg hlen]
  · rcases bytes with _ | ⟨handshakeType, _ | ⟨high, _ | ⟨mid, _ | ⟨low, tail⟩⟩⟩⟩
    case cons.cons.cons.cons =>
      simp only [ClientHello.message, be24, List.cons_append, List.nil_append, List.cons.injEq] at h
      obtain ⟨rfl, hhigh, hmid, hlow, hbody⟩ := h
      have hsize : high.toNat * 65536 + mid.toNat * 256 + low.toNat = hello.body.length := by
        have := nat24?_between [] [] rfl rfl hello.bodySize
        simpa [nat24?, be24, ← hhigh, ← hmid, ← hlow] using this
      have hlength : tail.length + rest.length = hello.body.length := by rw [← hbody, List.length_append]
      rw [check_header rfl, if_neg (not_not.2 rfl), hsize, show (SniReassembler.holding pos _).body = tail from rfl]
      by_cases hrest : rest = []
      · rw [hrest, List.append_nil] at hbody
        rw [if_pos hrest, if_pos (hbody ▸ Nat.le_refl _), ← hbody, List.take_length]
      · have := List.length_pos_of_ne_nil hrest
        rw [if_neg hrest, if_neg (by omega)]
    all_goals simp [handshakeHeaderLen] at hheader

theorem scan_records {hello : ClientHello} (after : List UInt8) : ∀ {records : List Record} (before bytes : List UInt8),
    bytes ++ records.flatMap Record.fragment = hello.message → bytes ≠ hello.message →
    loop (absorb (before ++ (records.flatMap Record.encode ++ after))) records.length (.holding before.length bytes) =
      some (.complete hello.body)
  | [], before, bytes, hcut, hne => absurd (by simpa using hcut) hne
  | record :: records, before, bytes, hcut, hne => by
    have hcut' : (bytes ++ record.fragment) ++ records.flatMap Record.fragment = hello.message := by
      rw [← hcut, flatMap_cons, append_assoc]
    have hbuf : before ++ ((record :: records).flatMap Record.encode ++ after) =
        before ++ (record.encode ++ (records.flatMap Record.encode ++ after)) := by
      rw [flatMap_cons, append_assoc]
    have hpass : absorb (before ++ (record.encode ++ (records.flatMap Record.encode ++ after)))
        (.holding before.length bytes) =
          (SniReassembler.holding (before ++ record.encode).length (bytes ++ record.fragment)).check := by
      rw [absorb, show (SniReassembler.holding before.length bytes).pos = before.length from rfl, fragment_between,
        ← take_holding before.length]
    rw [check_holding hcut'] at hpass
    rw [hbuf, length_cons]
    by_cases hlast : records.flatMap Record.fragment = []
    · rw [if_pos hlast] at hpass
      exact loop_succ_stop hpass
    · rw [if_neg hlast] at hpass
      rw [loop_succ_again hpass, ← append_assoc]
      refine scan_records after _ _ hcut' fun hall => hlast ?_
      rw [hall] at hcut'
      simpa using hcut'

end Praxis.Sni
