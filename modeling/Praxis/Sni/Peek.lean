/-
Peeking at the first bytes of a connection. The buffer grows with what arrives and is parsed after
every read, from the start after the first one and by the reassembler afterwards. However the bytes
are split into reads, the host name found is the one in the bytes themselves.
-/
import Praxis.Sni.Record

namespace Praxis.Sni

open List

open Praxis.Lib (Pass loop loop_inv loop_returns fromUtf8_utf8)

def peekInitial : Nat := 1024

def peekMax : Nat := 16384

/-! ## Parsing what has arrived -/

inductive SniPeekResult where
  | parsed (info : ClientHelloInfo)
  | needMore
  | notTls
deriving Repr, DecidableEq

def reassemblerStep (active : SniReassembler) (data : List UInt8) : SniPeekResult × SniReassembler :=
  match active.advance data with
  | (.ok (some info), active) => (.parsed info, active)
  | (.ok none, active) => (.needMore, active)
  | (.error _, active) => (.notTls, active)

def tryParseSni (data : List UInt8) : Option SniReassembler → SniPeekResult × Option SniReassembler
  | some active => (reassemblerStep active data).map id some
  | none =>
    match parseSni data with
    | .ok info => (.parsed info, none)
    | .error .tooShort | .error .needMoreData => (reassemblerStep .new data).map id some
    | .error _ => (.notTls, none)

/-- What an outcome of the scan means for the peek. -/
def Outcome.peeked (res : Outcome) : SniPeekResult :=
  match res.answer with
  | some (.ok info) => .parsed info
  | some (.error _) => .notTls
  | none => .needMore

variable {data : List UInt8} {res : Outcome}

theorem reassemblerStep_of_scan {r : SniReassembler} (h : scanFrom data r = some res) :
    (reassemblerStep r data).1 = res.peeked ∧
      ∀ error r', res = .incomplete error r' → (reassemblerStep r data).2 = r' := by
  unfold reassemblerStep SniReassembler.advance
  rw [h]
  cases res with
  | complete body =>
    refine ⟨?_, nofun⟩
    simp only [Outcome.peeked, Outcome.answer]
    cases parseClientHello body <;> rfl
  | failed error => exact ⟨rfl, nofun⟩
  | incomplete error r' => exact ⟨rfl, fun _ _ h => by cases h; rfl⟩

/-- The reassembler in use, if any, stands where the scan of the data ran out of bytes. -/
def Caught (data : List UInt8) : Option SniReassembler → Prop
  | none => data = []
  | some r => ∃ error, scanFrom data .new = some (.incomplete error r)

/-- After a read the result is that of the scan over everything that has arrived. -/
theorem tryParseSni_of_scan {data bytes : List UInt8} {reassembler : Option SniReassembler} {res : Outcome}
    (hcaught : Caught data reassembler) (h : scanFrom (data ++ bytes) .new = some res) :
    (tryParseSni (data ++ bytes) reassembler).1 = res.peeked ∧
      ∀ error r, res = .incomplete error r → (tryParseSni (data ++ bytes) reassembler).2 = some r := by
  -- whichever reassembler is used, its step is the scan's
  have hstep : ∀ r, scanFrom (data ++ bytes) r = some res →
      ((reassemblerStep r (data ++ bytes)).map id some).1 = res.peeked ∧
        ∀ error r', res = .incomplete error r' →
          ((reassemblerStep r (data ++ bytes)).map id some).2 = some r' := by
    intro r hr
    obtain ⟨hresult, hstate⟩ := reassemblerStep_of_scan hr
    exact ⟨hresult, fun error r' heq => congrArg some (hstate error r' heq)⟩
  cases reassembler with
  | some active =>
    obtain ⟨error, hwaiting⟩ := hcaught
    rw [scanFrom_resume hwaiting bytes] at h
    exact hstep active h
  | none =>
    rw [tryParseSni]
    rcases parseSni_of_scan h with hanswer | ⟨-, hmore | hmore⟩
    · have hfinal : ∀ error r, res ≠ .incomplete error r := by
        rintro error r rfl
        cases hanswer
      split
      · rename_i info hparse
        rw [hparse] at hanswer
        exact ⟨by rw [Outcome.peeked, hanswer], fun error r heq => absurd heq (hfinal error r)⟩
      · exact hstep .new h
      · exact hstep .new h
      · rename_i error _ _ hparse
        rw [hparse] at hanswer
        exact ⟨by rw [Outcome.peeked, hanswer], fun error r heq => absurd heq (hfinal error r)⟩
    · rw [hmore]
      exact hstep .new h
    · rw [hmore]
      exact hstep .new h

/-! ## Reading -/

/-- A connection: the segments its reads are served from, and whether they end in an error or with the
end of the stream. -/
structure Session where
  segments : List (List UInt8)
  fails : Bool

namespace Session

/-- The bytes that are still to come. -/
def stream (session : Session) : List UInt8 := session.segments.flatten

/-- A read into the space given: an error, or what fits of the next segment, nothing at the end. -/
def read (session : Session) (space : Nat) : Option (List UInt8) × Session :=
  match session.segments with
  | [] => (if session.fails then none else some [], session)
  | seg :: rest =>
    (some (seg.take space),
      { session with segments := if seg.length ≤ space then rest else seg.drop space :: rest })

/-- Reads return something until the stream ends. -/
def Ok (session : Session) : Prop := ∀ seg ∈ session.segments, seg ≠ []

theorem read_cases {session session' : Session} {space : Nat} {result : Option (List UInt8)} (hok : session.Ok)
    (hspace : 0 < space) (h : session.read space = (result, session')) :
    session.stream = [] ∧ session' = session ∧ (result = none ∨ result = some []) ∨
      ∃ bytes, result = some bytes ∧ bytes ≠ [] ∧ bytes.length ≤ space ∧ session.stream = bytes ++ session'.stream ∧
        session'.Ok := by
  obtain ⟨segments, fails⟩ := session
  cases segments with
  | nil =>
    cases h
    refine .inl ⟨rfl, rfl, ?_⟩
    cases fails
    · exact .inr rfl
    · exact .inl rfl
  | cons seg rest =>
    cases h
    have hsegment : seg ≠ [] := hok seg (.head _)
    have hrest : ∀ s ∈ rest, s ≠ [] := fun s hs => hok s (.tail _ hs)
    refine .inr ⟨seg.take space, rfl, ?_, length_take_le _ _, ?_, ?_⟩
    · rw [ne_eq, take_eq_nil_iff]
      exact fun h => h.elim (by omega) hsegment
    · simp only [stream, flatten_cons]
      split
      · rename_i hfits
        rw [take_of_length_le hfits]
      · rw [flatten_cons, ← append_assoc, take_append_drop]
    · intro s hs
      simp only at hs
      split at hs
      · exact hrest s hs
      · rename_i hlong
        rcases hs with _ | ⟨_, hs⟩
        · rw [ne_eq, drop_eq_nil_iff]
          omega
        · exact hrest s hs

end Session

/-! ## The peek -/

inductive PeekAction where
  | done (sni : Option String)
  | readMore
deriving Repr, DecidableEq

/-- `handle_sni_read`, on the filled part of a buffer of size `size`; the buffer doubles when it is full. -/
def handleSniRead (data : List UInt8) (size : Nat) (reassembler : Option SniReassembler) :
    PeekAction × Nat × Option SniReassembler :=
  match tryParseSni data reassembler with
  | (.parsed info, reassembler) => (.done info.sni, size, reassembler)
  | (.needMore, reassembler) =>
    if peekMax ≤ data.length then (.done none, size, reassembler)
    else (.readMore, if data.length = size then min (size * 2) peekMax else size, reassembler)
  | (.notTls, reassembler) => (.done none, size, reassembler)

/-- The variables of `peek_sni`: the filled part of the buffer, and its size. -/
structure Peek where
  session : Session
  data : List UInt8
  size : Nat
  reassembler : Option SniReassembler

/-- The loop of `peek_sni` -/
def peekPass (s : Peek) : Pass Peek ((Option String × List UInt8) × Session) :=
  match s.session.read (s.size - s.data.length) with
  | (none, session) => .stop ((none, s.data), session)
  | (some [], session) => .stop ((none, s.data), session)
  | (some bytes, session) =>
    let data := s.data ++ bytes
    match handleSniRead data s.size s.reassembler with
    | (.done sni, _, _) => .stop ((sni, data), session)
    | (.readMore, size, reassembler) => .again { session, data, size, reassembler }

/-- `peek_sni`, with what is left of the session. Every read that goes on takes at least a byte. -/
def peekSni (session : Session) : Option ((Option String × List UInt8) × Session) :=
  loop peekPass (session.stream.length + 1) { session, data := [], size := peekInitial, reassembler := none }

/-- The host name in a parse result. -/
def foundHost : Except SniParseError ClientHelloInfo → Option String
  | .ok info => info.sni
  | .error _ => none

/-- What the loop keeps: the buffer has room, and holds the bytes taken off the stream so far. -/
structure Peek.Ok (stream : List UInt8) (s : Peek) : Prop where
  session : s.session.Ok
  stream : s.data ++ s.session.stream = stream
  room : s.data.length < s.size
  size : s.size ≤ peekMax
  caught : Caught s.data s.reassembler

/-- What the peek returns: the host name in the first bytes of the stream, and the bytes taken. -/
def Peek.Post (stream : List UInt8) (result : (Option String × List UInt8) × Session) : Prop :=
  result.1.1 = foundHost (parseSni (stream.take peekMax)) ∧ result.1.2 ++ result.2.stream = stream

/-- No host name is found while bytes are missing. -/
theorem foundHost_of_caught {reassembler : Option SniReassembler} (h : Caught data reassembler) :
    foundHost (parseSni data) = none := by
  cases reassembler with
  | none =>
    rw [show data = [] from h]
    rfl
  | some r =>
    obtain ⟨error, hscan⟩ := h
    rcases parseSni_of_scan hscan with hanswer | ⟨-, hmore | hmore⟩
    · cases hanswer
    · rw [hmore]; rfl
    · rw [hmore]; rfl

theorem incomplete_of_peeked (h : res.peeked = .needMore) : ∃ error r, res = .incomplete error r := by
  cases res with
  | complete body =>
    simp only [Outcome.peeked, Outcome.answer] at h
    cases hparse : parseClientHello body <;> rw [hparse] at h <;> cases h
  | failed error => cases h
  | incomplete error r => exact ⟨error, r, rfl⟩

/-- An answer found in the bytes so far is the one in any more bytes. -/
theorem foundHost_of_peeked (hscan : scanFrom data .new = some res) (hanswer : res.peeked ≠ .needMore)
    (more : List UInt8) :
    foundHost (parseSni (data ++ more)) = match res.peeked with | .parsed info => info.sni | _ => none := by
  have hfinal : ∀ error r, res ≠ .incomplete error r := by
    rintro error r rfl
    exact hanswer rfl
  rcases parseSni_of_scan (scanFrom_answer hscan hfinal more) with h | ⟨h, -⟩
  · rw [Outcome.peeked, h]
    cases parseSni (data ++ more) <;> rfl
  · rw [Outcome.peeked, h] at hanswer
    cases hanswer rfl

theorem handleSniRead_spec {stream : List UInt8} {s : Peek} (hok : s.Ok stream) {bytes : List UInt8} {session : Session}
    (hfits : bytes.length ≤ s.size - s.data.length) (hsession : session.Ok)
    (hstream : s.session.stream = bytes ++ session.stream) :
    (∃ sni size reassembler, handleSniRead (s.data ++ bytes) s.size s.reassembler = (.done sni, size, reassembler) ∧
      Peek.Post stream ((sni, s.data ++ bytes), session)) ∨
    ∃ size reassembler, handleSniRead (s.data ++ bytes) s.size s.reassembler = (.readMore, size, reassembler) ∧
      Peek.Ok stream { session, data := s.data ++ bytes, size, reassembler } := by
  obtain ⟨res, hscan⟩ := scanFrom_returns (s.data ++ bytes) .new
  obtain ⟨hresult, hstate⟩ := tryParseSni_of_scan hok.caught hscan
  have htaken : (s.data ++ bytes) ++ session.stream = stream := by rw [append_assoc, ← hstream, hok.stream]
  have hroom : (s.data ++ bytes).length ≤ s.size := by
    have := hok.room
    rw [length_append]
    omega
  have hmax : (s.data ++ bytes).length ≤ peekMax := Nat.le_trans hroom hok.size
  have hfirst : stream.take peekMax = (s.data ++ bytes) ++ session.stream.take (peekMax - (s.data ++ bytes).length) := by
    rw [← htaken, take_append, take_of_length_le hmax]
  unfold handleSniRead
  cases htry : tryParseSni (s.data ++ bytes) s.reassembler with
  | mk result reassembler =>
    rw [htry] at hresult hstate
    cases result with
    | parsed info =>
      refine .inl ⟨_, _, _, rfl, ?_, htaken⟩
      rw [hfirst, foundHost_of_peeked hscan (by rw [← hresult]; nofun), ← hresult]
    | notTls =>
      refine .inl ⟨_, _, _, rfl, ?_, htaken⟩
      rw [hfirst, foundHost_of_peeked hscan (by rw [← hresult]; nofun), ← hresult]
    | needMore =>
      obtain ⟨error, r, rfl⟩ := incomplete_of_peeked hresult.symm
      have hcaught : Caught (s.data ++ bytes) reassembler := by
        rw [show reassembler = some r from hstate error r rfl]
        exact ⟨error, hscan⟩
      simp only
      split
      · rename_i hfull
        refine .inl ⟨_, _, _, rfl, ?_, htaken⟩
        rw [hfirst, Nat.sub_eq_zero_of_le hfull, take_zero, append_nil, foundHost_of_caught hcaught]
      · rename_i hfull
        refine .inr ⟨_, _, rfl, hsession, htaken, ?_, ?_, hcaught⟩
        · have := hok.room
          simp only
          split <;> omega
        · simp only
          split
          · exact Nat.min_le_right _ _
          · exact hok.size

/-- A pass stops with the right result or goes on, with less of the stream to come. -/
theorem peekPass_spec {stream : List UInt8} {s : Peek} (hok : s.Ok stream) :
    (∃ result, peekPass s = .stop result ∧ Peek.Post stream result) ∨
      ∃ s', peekPass s = .again s' ∧ s'.Ok stream ∧ s'.session.stream.length < s.session.stream.length := by
  have hspace : 0 < s.size - s.data.length := by
    have := hok.room
    omega
  unfold peekPass
  cases hread : s.session.read (s.size - s.data.length) with
  | mk result session =>
    rcases Session.read_cases hok.session hspace hread with ⟨hend, hsame, hresult⟩ | ⟨bytes, hresult, hne, hfits, hstream, hsession⟩
    · have hdata : s.data = stream := by rw [← hok.stream, hend, append_nil]
      have hlen : stream.take peekMax = s.data := by
        rw [← hdata, take_of_length_le (Nat.le_trans (Nat.le_of_lt hok.room) hok.size)]
      have hpost : Peek.Post stream ((none, s.data), session) :=
        ⟨by rw [hlen, foundHost_of_caught hok.caught], by rw [hsame]; exact hok.stream⟩
      rcases hresult with rfl | rfl
      · exact .inl ⟨_, rfl, hpost⟩
      · exact .inl ⟨_, rfl, hpost⟩
    · cases bytes with
      | nil => cases hne rfl
      | cons b bs =>
        cases hresult
        simp only
        rcases handleSniRead_spec hok hfits hsession hstream with ⟨sni, size, reassembler, hdone, hpost⟩ | ⟨size, reassembler, hmore, hok'⟩
        · rw [hdone]
          exact .inl ⟨_, rfl, hpost⟩
        · rw [hmore]
          refine .inr ⟨_, rfl, hok', ?_⟩
          rw [hstream, length_append, length_cons]
          show session.stream.length < _
          omega

/-- However the stream is split into reads, the peek returns the host name that is found in its first
bytes, and the bytes it took; and the host name of a well-formed hello that fits, cut into any records,
is found. -/
theorem peekSni_exact {session : Session} (hsession : session.Ok) :
    (∃ bytes left, peekSni session = some ((foundHost (parseSni (session.stream.take peekMax)), bytes), left) ∧
      bytes ++ left.stream = session.stream) ∧
    ∀ (hello : ClientHello) (records : List Record) (after : List UInt8), hello.CutInto records →
      session.stream = records.flatMap Record.encode ++ after → (records.flatMap Record.encode).length ≤ peekMax →
      foundHost (parseSni (session.stream.take peekMax)) = some hello.host := by
  have hstart : Peek.Ok session.stream { session, data := [], size := peekInitial, reassembler := none } :=
    ⟨hsession, rfl, show 0 < peekInitial by decide, show peekInitial ≤ peekMax by decide, rfl⟩
  constructor
  · have hagain : ∀ s s', Peek.Ok session.stream s → peekPass s = .again s' →
        Peek.Ok session.stream s' ∧ s'.session.stream.length < s.session.stream.length := by
      intro s s' hok hpass
      rcases peekPass_spec hok with ⟨result, hstop, -⟩ | ⟨next, hnext, hok', hless⟩
      · rw [hstop] at hpass
        cases hpass
      · rw [hnext] at hpass
        cases hpass
        exact ⟨hok', hless⟩
    have hstop : ∀ s result, Peek.Ok session.stream s → peekPass s = .stop result → Peek.Post session.stream result := by
      intro s result hok hpass
      rcases peekPass_spec hok with ⟨result', hstop, hpost⟩ | ⟨next, hnext, -, -⟩
      · rw [hstop] at hpass
        cases hpass
        exact hpost
      · rw [hnext] at hpass
        cases hpass
    obtain ⟨⟨⟨host, bytes⟩, left⟩, hresult⟩ := loop_returns (fun s => s.session.stream.length) hagain hstart
      (Nat.lt_succ_self _)
    obtain ⟨hhost, hbytes⟩ := loop_inv (fun s s' hok h => (hagain s s' hok h).1) hstop hstart hresult
    exact ⟨bytes, left, by rw [peekSni, hresult, ← hhost], hbytes⟩
  · intro hello records after hcut hstream hfits
    rw [hstream, take_append, take_of_length_le hfits]
    have hne : ([] : List UInt8) ≠ hello.message := nofun
    have hscan : scanFrom (records.flatMap Record.encode ++ after.take (peekMax - (records.flatMap Record.encode).length))
        .new = some (.complete hello.body) :=
      scanFrom_of_loop (scan_records _ [] [] hcut hne)
    rcases parseSni_of_scan hscan with hanswer | ⟨hanswer, -⟩
    · rw [Outcome.answer, hello.parse_body] at hanswer
      rw [← Option.some.inj hanswer]
      rfl
    · cases hanswer

/-- A hello with nothing but a host name. -/
private def smallHello : ClientHello where
  fixed := replicate 34 0
  sessionId := []
  cipherSuites := [0x13, 0x01]
  compressionMethods := [0]
  namesBefore := []
  host := "a.io"
  namesAfter := []
  extensionsBefore := []
  extensionsAfter := [{ kind := 43, data := [2, 3, 4], kindSize := by decide, dataSize := by decide }]
  fixedSize := rfl
  sessionIdSize := by decide
  cipherSuitesSize := by decide
  compressionMethodsSize := by decide
  otherNames := by simp
  otherExtensions := by simp [extensionTypeSni]
  extensionsSize := by decide
  accepted := by
    rw [hostName, fromUtf8_utf8, if_neg (by decide)]
    rfl

/-- Its message in two records, the first one cut inside the handshake header. -/
private def smallRecords : List Record :=
  [{ version := (3, 1), fragment := smallHello.message.take 3, size := by decide },
    { version := (3, 3), fragment := smallHello.message.drop 3, size := by decide }]

/-- The records, read byte by byte. -/
private def trickled : Session := { segments := (smallRecords.flatMap Record.encode).map fun b => [b], fails := false }

theorem trickled_peekSni : trickled.Ok ∧ ∃ bytes left, peekSni trickled = some ((some "a.io", bytes), left) := by
  have hok : trickled.Ok := by
    intro seg hsegment
    obtain ⟨b, -, rfl⟩ := mem_map.1 hsegment
    exact cons_ne_nil b []
  obtain ⟨⟨bytes, left, hpeek, -⟩, hfound⟩ := peekSni_exact hok
  have hstream : trickled.stream = smallRecords.flatMap Record.encode ++ [] := by decide
  rw [hfound smallHello smallRecords [] rfl hstream (by decide)] at hpeek
  exact ⟨hok, bytes, left, hpeek⟩

end Praxis.Sni
