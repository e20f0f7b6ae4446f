/-
The decoder reads a stream the same way however it is cut into chunks. While it is being fed it
mirrors a scanner of single bytes; between two pushes it is determined by the bytes read so far.
At the end of the stream it reports what the reference parser with limits finds in all of them.
-/
import Praxis.Sse.Reference
import Mathlib.Data.List.TakeWhile

namespace Praxis.Sse

open SseDecoder SseBatch List Nat Praxis.Lib

variable {lim : SseLimits} {base : List SseRecord}

/-- The scanner that the decoder follows. -/
def scanStream (lim : SseLimits) (s : Scan Assembly) (bytes : Bytes) : Except Excess (Scan Assembly) :=
  scan lim.maxLineBytes lineExcess (onLine lim) s bytes

def startScan : Scan Assembly := ⟨[], false, ([], [])⟩

/-- A decoder past the byte order mark that has read as much as a scanner; `base` are the records
of earlier pushes. -/
structure Mirrors (lim : SseLimits) (base : List SseRecord) (d : SseDecoder) (recs : List SseRecord)
    (s : Scan Assembly) : Prop where
  active : d.state = .active
  resolved : d.bomResolved = true
  sameLimits : d.limits = lim
  line : d.lineBuf = s.line
  fits : s.line.length ≤ lim.maxLineBytes
  fields : d.fields = s.acc.2
  cost : d.recordBytes = recordCost s.acc.2
  records : s.acc.1 = base ++ recs

/-- The decoder has come as far as the scanner, or both have failed at the same line. -/
def Agrees (lim : SseLimits) (base : List SseRecord) (fed : Fed) : Except Excess (Scan Assembly) → Prop
  | .ok s => fed.error = none ∧ Mirrors lim base fed.decoder fed.records s ∧ fed.decoder.prevCr = s.afterCr
  | .error excess => ∃ err, fed.error = some err ∧ err.kind = excess.2 ∧ excess.1 = base ++ fed.records

/-! ## Lines -/

variable {d : SseDecoder} {recs : List SseRecord} {s : Scan Assembly} {read : Bytes}

theorem pushField_commitField (hcost : d.recordBytes = recordCost d.fields) (field : SseField) :
    match commitField d.limits d.fields field with
    | .error kind => ∃ err, d.pushField field = .error err ∧ err.kind = kind
    | .ok fields => d.pushField field = .ok { d with recordBytes := recordCost fields, fields := fields } := by
  rw [commitField, pushField]
  by_cases hmany : d.limits.maxFieldsPerRecord ≤ d.fields.length
  · rw [if_pos hmany, if_pos hmany]
    exact ⟨_, rfl, rfl⟩
  · rw [if_neg hmany, if_neg hmany]
    by_cases hlarge : d.limits.maxRecordBytes < recordCost d.fields + fieldCost field
    · rw [if_pos hlarge]
      dsimp only
      rw [hcost, if_pos hlarge]
      exact ⟨_, rfl, rfl⟩
    · rw [if_neg hlarge]
      dsimp only
      rw [hcost, if_neg hlarge, recordCost_append]
      rfl

theorem endLine_none (hline : d.lineBuf = []) (hfields : d.fields = []) (recs : List SseRecord) :
    d.endLine recs = .ok (d, recs) := by
  cases d
  subst hline hfields
  simp [endLine, processLine]

theorem endLine_record (hline : d.lineBuf = []) (hfields : d.fields ≠ []) (recs : List SseRecord) :
    d.endLine recs = .ok ({ d with fields := [], recordBytes := 0 }, recs ++ [⟨d.fields⟩]) := by
  cases d
  subst hline
  simp [endLine, processLine, hfields]

theorem endLine_field (hline : d.lineBuf ≠ []) :
    d.endLine recs =
      match d.pushField (fieldOf d.lineBuf) with
      | .error err => .error err
      | .ok d => .ok ({ d with lineBuf := [] }, recs) := by
  rw [endLine, processLine, if_neg (by simpa using hline), classifyLine_eq]
  cases d.pushField (fieldOf d.lineBuf) with
  | error err => rfl
  | ok d' => simp

theorem endLine_onLine (h : Mirrors lim base d recs s) :
    match onLine lim s.acc s.line with
    | .error excess => ∃ err, d.endLine recs = .error err ∧ err.kind = excess.2 ∧ excess.1 = base ++ recs
    | .ok acc => ∃ d' recs', d.endLine recs = .ok (d', recs') ∧ d'.prevCr = d.prevCr ∧
        ∀ afterCr, Mirrors lim base d' recs' ⟨[], afterCr, acc⟩ := by
  rw [onLine]
  by_cases hblank : s.line = []
  · have hline : d.lineBuf = [] := h.line.trans hblank
    rw [if_pos hblank]
    by_cases hfields : s.acc.2 = []
    · rw [if_pos hfields]
      refine ⟨_, _, endLine_none hline (h.fields.trans hfields) recs, rfl, fun afterCr => ?_⟩
      exact ⟨h.active, h.resolved, h.sameLimits, hline, zero_le _, h.fields.trans hfields,
        h.cost.trans (by rw [hfields]), h.records⟩
    · rw [if_neg hfields]
      refine ⟨_, _, endLine_record hline (h.fields ▸ hfields) recs, rfl, fun afterCr => ?_⟩
      exact ⟨h.active, h.resolved, h.sameLimits, hline, zero_le _, rfl, rfl, by simp [h.records, h.fields]⟩
  · rw [if_neg hblank, endLine_field (h.line ▸ hblank), h.line]
    have hcommit := pushField_commitField (d := d) (by rw [h.cost, h.fields]) (fieldOf s.line)
    rw [h.sameLimits, h.fields] at hcommit
    cases hc : commitField lim s.acc.2 (fieldOf s.line) with
    | error kind =>
      rw [hc] at hcommit
      obtain ⟨err, hpush, hkind⟩ := hcommit
      rw [hpush]
      exact ⟨err, rfl, hkind, h.records⟩
    | ok fields =>
      rw [hc] at hcommit
      dsimp only at hcommit
      rw [hcommit]
      refine ⟨_, _, rfl, rfl, fun afterCr => ?_⟩
      exact ⟨h.active, h.resolved, rfl, rfl, zero_le _, rfl, rfl, h.records⟩

/-! ## Bytes -/

/-- Between two passes of `feed` no LF is waited for any more: it has been passed over with its
CR. Only at the end of the chunk the decoder remembers a CR. -/
def Ready (d : SseDecoder) (s : Scan Assembly) : Bytes → Prop
  | [] => d.prevCr = s.afterCr
  | b :: _ => d.prevCr = false ∧ (s.afterCr = true → b ≠ LF)

theorem ready_of_false (hd : d.prevCr = false) (hs : s.afterCr = false) (bytes : Bytes) : Ready d s bytes := by
  cases bytes with
  | nil => exact hd.trans hs.symm
  | cons b rest => exact ⟨hd, fun h => absurd (hs.symm.trans h) nofun⟩

theorem feedLoop_nil (fuel : Nat) : feedLoop fuel d recs [] = ⟨d, recs, none⟩ := by
  cases fuel <;> rfl

/-- Every pass of `feed` does what the scanner does with the bytes of that pass. -/
theorem feedLoop_agrees : ∀ (fuel : Nat) {d : SseDecoder} {recs : List SseRecord} {bytes : Bytes} {s : Scan Assembly},
    bytes.length ≤ fuel → Mirrors lim base d recs s → Ready d s bytes →
    Agrees lim base (feedLoop fuel d recs bytes) (scanStream lim s bytes)
  | fuel, d, recs, [], s, _, hm, hr => by
    rw [feedLoop_nil]
    exact ⟨rfl, hm, hr⟩
  | 0, d, recs, b :: rest, s, hlen, _, _ => absurd hlen (by simp)
  | fuel + 1, d, recs, b :: rest, s, hlen, hm, hr => by
    obtain ⟨hprev, hnotLf⟩ := hr
    have hrest : rest.length ≤ fuel := by simpa using hlen
    rw [feedLoop, scanStream]
    have hend := endLine_onLine hm
    by_cases hlf : b = LF
    · have hafter : s.afterCr = false := by
        cases h : s.afterCr with
        | false => rfl
        | true => exact absurd hlf (hnotLf h)
      rw [if_pos hlf, scan, scanByte, if_pos hlf, hafter]
      cases hon : onLine lim s.acc s.line with
      | error excess =>
        rw [hon] at hend
        obtain ⟨err, herr, hkind, hrecords⟩ := hend
        rw [herr]
        exact ⟨err, rfl, hkind, hrecords⟩
      | ok acc =>
        rw [hon] at hend
        obtain ⟨d', recs', hok, hprev', hm'⟩ := hend
        rw [hok]
        exact feedLoop_agrees fuel hrest (hm' false) (ready_of_false (hprev'.trans hprev) rfl rest)
    · rw [if_neg hlf]
      by_cases hcr : b = CR
      · rw [if_pos hcr, scan, scanByte, if_neg hlf, if_pos hcr, handleCr]
        cases hon : onLine lim s.acc s.line with
        | error excess =>
          rw [hon] at hend
          obtain ⟨err, herr, hkind, hrecords⟩ := hend
          rw [herr]
          exact ⟨err, rfl, hkind, hrecords⟩
        | ok acc =>
          rw [hon] at hend
          obtain ⟨d', recs', hok, hprev', hm'⟩ := hend
          rw [hok]
          -- the byte after the CR decides whether it is one line end with it
          cases rest with
          | nil =>
            have h := hm' true
            refine feedLoop_agrees fuel (zero_le _) (d := { d' with prevCr := true }) (s := ⟨[], true, acc⟩) ?_ rfl
            exact ⟨h.active, h.resolved, h.sameLimits, h.line, h.fits, h.fields, h.cost, h.records⟩
          | cons c rest' =>
            by_cases hc : c = LF
            · have hskip : scanStream lim ⟨[], true, acc⟩ (c :: rest') = scanStream lim ⟨[], false, acc⟩ rest' := by
                rw [scanStream, scan, scanByte, if_pos hc]
                rfl
              dsimp only
              rw [if_pos hc]
              show Agrees lim base _ (scanStream lim ⟨[], true, acc⟩ (c :: rest'))
              rw [hskip]
              refine feedLoop_agrees fuel ?_ (hm' false) (ready_of_false (hprev'.trans hprev) rfl rest')
              exact le_of_succ_le hrest
            · dsimp only
              rw [if_neg hc]
              exact feedLoop_agrees fuel hrest (hm' true) ⟨hprev'.trans hprev, fun _ => hc⟩
      · have hb : isTerminator b = false := by simp [isTerminator, hlf, hcr]
        have hsplit := takeWhile_append_dropWhile (p := fun c => !isTerminator c) (l := b :: rest)
        have hdata : ∀ c ∈ (b :: rest).takeWhile (fun c => !isTerminator c), isTerminator c = false := by
          intro c hc
          simpa using mem_takeWhile_imp hc
        have hne : (b :: rest).takeWhile (fun c => !isTerminator c) ≠ [] := by
          simp [hb]
        have hless : ((b :: rest).dropWhile fun c => !isTerminator c).length ≤ fuel := by
          rw [dropWhile_cons, hb]
          exact le_trans (dropWhile_suffix _).length_le hrest
        rw [if_neg hcr]
        conv => arg 4; rw [← hsplit]
        rw [scan_append, scan_run _ hdata hne hm.fits, extendLine, hm.line, hm.sameLimits]
        generalize (b :: rest).takeWhile (fun c => !isTerminator c) = run at *
        generalize ((b :: rest).dropWhile fun c => !isTerminator c) = left at *
        by_cases hlong : lim.maxLineBytes < s.line.length + run.length
        · rw [if_pos hlong]
          dsimp only
          rw [if_pos hlong]
          exact ⟨_, rfl, rfl, hm.records⟩
        · rw [if_neg hlong]
          dsimp only
          rw [if_neg hlong]
          refine feedLoop_agrees fuel hless (s := ⟨s.line ++ run, false, s.acc⟩) ?_ (ready_of_false hprev rfl left)
          exact ⟨hm.active, hm.resolved, rfl, rfl, by simpa using not_lt.1 hlong, hm.fields, hm.cost, hm.records⟩

theorem feed_agrees (hm : Mirrors lim base d recs s) (hcr : d.prevCr = s.afterCr) (bytes : Bytes) :
    Agrees lim base (d.feed recs bytes) (scanStream lim s bytes) := by
  have hm' : Mirrors lim base { d with prevCr := false } recs s :=
    ⟨hm.active, hm.resolved, hm.sameLimits, hm.line, hm.fits, hm.fields, hm.cost, hm.records⟩
  rw [feed]
  cases bytes with
  | nil => exact ⟨rfl, hm, hcr⟩
  | cons b rest =>
    rw [isEmpty_cons, if_neg (by decide), hcr, skipLf]
    by_cases hskip : s.afterCr = true ∧ b = LF
    · have hscan : scanStream lim s (b :: rest) = scanStream lim { s with afterCr := false } rest := by
        rw [scanStream, scan, scanByte, if_pos hskip.2, if_pos hskip.1]
        rfl
      rw [if_pos hskip, hscan]
      refine feedLoop_agrees _ (by simp) ?_ (ready_of_false rfl rfl rest)
      exact ⟨hm.active, hm.resolved, hm.sameLimits, hm.line, hm.fits, hm.fields, hm.cost, hm.records⟩
    · rw [if_neg hskip]
      exact feedLoop_agrees _ le_rfl hm' ⟨rfl, fun h hb => hskip ⟨h, hb⟩⟩

/-! ## The byte order mark -/

/-- What has been read decides whether the stream starts with a byte order mark. -/
def BomDecided (read : Bytes) : Prop := ∀ n < BOM.length, read ≠ BOM.take n

/-- Bytes after a mismatch or after the whole mark do not change the decision. -/
theorem stripBom_append (h : BomDecided read) (chunk : Bytes) :
    BomDecided (read ++ chunk) ∧ stripBom (read ++ chunk) = stripBom read ++ chunk := by
  match read, h with
  | [], h => exact absurd rfl (h 0 (by decide))
  | [a], h =>
    have ha : a ≠ 0xEF := fun ha => h 1 (by decide) (by rw [ha]; rfl)
    refine ⟨fun n hn => ?_, ?_⟩
    · match n with
      | 0 => simp
      | 1 => simp [BOM, ha]
      | 2 => simp [BOM, ha]
    · simp [stripBom, BOM, isPrefixOf, ha.symm]
  | [a, b], h =>
    have hab : a = 0xEF → b ≠ 0xBB := fun ha hb => h 2 (by decide) (by rw [ha, hb]; rfl)
    refine ⟨fun n hn => ?_, ?_⟩
    · match n with
      | 0 => simp
      | 1 => simp [BOM]
      | 2 =>
        simp only [BOM, take_succ_cons, take_zero, cons_append, nil_append, ne_eq,
          cons.injEq, not_and]
        exact fun ha hb => absurd hb (hab ha)
    · have hno : ∀ tail : Bytes, BOM.isPrefixOf (a :: b :: tail) = false := by
        intro tail
        by_cases ha : a = 0xEF
        · simp [BOM, isPrefixOf, ha, (hab ha).symm]
        · simp [BOM, isPrefixOf, Ne.symm ha]
      rw [stripBom, stripBom, cons_append, cons_append, hno, hno]
      simp
  | a :: b :: c :: rest, h =>
    refine ⟨fun n hn heq => ?_, ?_⟩
    · have hlen := congrArg length heq
      have h3 : BOM.length = 3 := rfl
      simp only [cons_append, length_cons, length_take] at hlen
      omega
    · have hsame : BOM.isPrefixOf (a :: b :: c :: (rest ++ chunk)) = BOM.isPrefixOf (a :: b :: c :: rest) := by
        simp [BOM, isPrefixOf]
      rw [stripBom, stripBom, cons_append, cons_append, cons_append, hsame]
      split <;> simp [BOM]

theorem stripBom_take : ∀ n < BOM.length, stripBom (BOM.take n) = BOM.take n := by decide

theorem bomDecided_append (rest : Bytes) : BomDecided (BOM ++ rest) ∧ stripBom (BOM ++ rest) = rest := by
  have hbom : BomDecided BOM := by
    rw [BomDecided]
    decide
  exact stripBom_append hbom rest

/-- A byte that differs from the mark's decides. -/
theorem bomDecided_of_mismatch {n : Nat} {b : UInt8} (hn : n < BOM.length) (hb : BOM[n]? ≠ some b) :
    BomDecided (BOM.take n ++ [b]) ∧ stripBom (BOM.take n ++ [b]) = BOM.take n ++ [b] := by
  have hget : (BOM.take n ++ [b])[n]? = some b := by
    have hlen : (BOM.take n).length = n := by rw [length_take]; omega
    rw [getElem?_append_right (by omega), hlen]
    simp
  refine ⟨fun m hm heq => ?_, ?_⟩
  · rw [heq, getElem?_take] at hget
    split at hget
    · exact hb hget
    · cases hget
  · rw [stripBom, if_neg]
    intro hprefix
    obtain ⟨rest, hrest⟩ := isPrefixOf_iff_prefix.1 hprefix
    rw [← hrest, getElem?_append_left hn] at hget
    exact hb hget

/-- What the search for the mark in a chunk finds out about all the bytes read. -/
theorem matchBom_spec : ∀ (chunk : Bytes) {n : Nat}, n ≤ BOM.length →
    match matchBom n chunk with
    | .more m => m < BOM.length ∧ BOM.take n ++ chunk = BOM.take m
    | .complete rest => BOM.take n ++ chunk = BOM ++ rest
    | .mismatch => BomDecided (BOM.take n ++ chunk) ∧ stripBom (BOM.take n ++ chunk) = BOM.take n ++ chunk
  | [], n, hn => by
    rw [matchBom, append_nil]
    by_cases hlt : n < BOM.length
    · rw [if_pos hlt]
      exact ⟨hlt, rfl⟩
    · rw [if_neg hlt, take_of_length_le (not_lt.1 hlt)]
      exact (append_nil _).symm
  | b :: rest, n, hn => by
    rw [matchBom]
    by_cases hlt : n < BOM.length
    · rw [if_pos hlt]
      by_cases hb : BOM[n]? = some b
      · have hmove : BOM.take n ++ b :: rest = BOM.take (n + 1) ++ rest := by
          rw [take_add_one, hb]
          simp
        rw [if_pos hb, hmove]
        exact matchBom_spec rest hlt
      · rw [if_neg hb]
        obtain ⟨hdecided, hstrip⟩ := bomDecided_of_mismatch hlt hb
        have h := stripBom_append hdecided rest
        rw [hstrip, append_assoc] at h
        exact h
    · rw [if_neg hlt, take_of_length_le (not_lt.1 hlt)]

/-! ## Pushes -/

/-- A decoder between two pushes, with the records of all pushes so far: a function of the bytes
read, not of the chunks they came in. -/
inductive Tracks (lim : SseLimits) : SseDecoder × List SseRecord → Bytes → Prop
  | waiting {n : Nat} (hn : n < BOM.length) :
    Tracks lim ({ withLimits lim with bomLen := n }, []) (BOM.take n)
  | reading {d : SseDecoder} {recs : List SseRecord} {read : Bytes} {s : Scan Assembly} (hread : BomDecided read)
    (hscan : scanStream lim startScan (stripBom read) = .ok s) (hm : Mirrors lim [] d recs s)
    (hcr : d.prevCr = s.afterCr) : Tracks lim (d, recs) read
  | failed {d : SseDecoder} {recs : List SseRecord} {read : Bytes} {err : SseDecodeError} (hread : BomDecided read)
    (hscan : scanStream lim startScan (stripBom read) = .error (recs, err.kind)) (hd : d.state = .poisoned err) :
    Tracks lim (d, recs) read

theorem Mirrors.rebase (h : Mirrors lim [] d recs s) : Mirrors lim recs d [] s :=
  ⟨h.active, h.resolved, h.sameLimits, h.line, h.fits, h.fields, h.cost, by rw [h.records]; simp⟩

theorem mirrors_start (hd : d = { withLimits lim with bomResolved := true }) : Mirrors lim [] d [] startScan := by
  subst hd
  exact ⟨rfl, rfl, rfl, rfl, zero_le _, rfl, rfl, rfl⟩

variable {r : Except Excess (Scan Assembly)} {chunks : List Bytes}

theorem agrees_feed {fed : Fed} (chunk : Bytes) :
    Agrees lim base fed r → Agrees lim base
      (match fed with
        | ⟨d, recs, some err⟩ => ⟨d, recs, some err⟩
        | ⟨d, recs, none⟩ => d.feed recs chunk)
      (r.bind fun s => scanStream lim s chunk) := by
  intro h
  obtain ⟨d, recs, error⟩ := fed
  cases r with
  | error excess =>
    obtain ⟨err, rfl, hkind, hrecords⟩ := h
    exact ⟨err, rfl, hkind, hrecords⟩
  | ok s =>
    obtain ⟨rfl, hm, hcr⟩ := h
    exact feed_agrees hm hcr chunk

theorem tracks_of_agrees {chunk : Bytes} (hd : d.state = .active) (hread : BomDecided read)
    (h : Agrees lim recs (d.parse chunk) (scanStream lim startScan (stripBom read))) :
    Tracks lim ((d.push chunk).1, recs ++ (d.push chunk).2.records) read := by
  rw [push, hd]
  rcases hp : d.parse chunk with ⟨d', batch, error⟩
  rw [hp] at h
  cases hscan : scanStream lim startScan (stripBom read) with
  | error excess =>
    rw [hscan] at h
    obtain ⟨err, rfl, hkind, hrecords⟩ := h
    refine .failed hread ?_ rfl
    rw [hscan, hkind]
    exact congrArg Except.error (Prod.ext hrecords rfl)
  | ok s =>
    rw [hscan] at h
    obtain ⟨rfl, hm, hcr⟩ := h
    exact .reading hread hscan
      ⟨hm.active, hm.resolved, hm.sameLimits, hm.line, hm.fits, hm.fields, hm.cost, hm.records⟩ hcr

theorem push_tracks (h : Tracks lim (d, recs) read) (chunk : Bytes) :
    Tracks lim ((d.push chunk).1, recs ++ (d.push chunk).2.records) (read ++ chunk) := by
  cases h with
  | @failed _ _ _ err hread hscan hd =>
    obtain ⟨hread', hstrip⟩ := stripBom_append hread chunk
    have hpush : d.push chunk = (d, ⟨[], none, some err⟩) := by rw [push, hd]
    rw [hpush, append_nil]
    refine .failed hread' ?_ hd
    rw [hstrip, scanStream, scan_append, ← scanStream, hscan]
    rfl
  | reading hread hscan hm hcr =>
    obtain ⟨hread', hstrip⟩ := stripBom_append hread chunk
    refine tracks_of_agrees hm.active hread' ?_
    rw [parse, if_pos hm.resolved, hstrip, scanStream, scan_append, ← scanStream, hscan]
    exact feed_agrees hm.rebase hcr chunk
  | @waiting n hn =>
    have hspec := matchBom_spec chunk (le_of_lt hn)
    cases hmatch : matchBom n chunk with
    | more m =>
      rw [hmatch] at hspec
      have hpush : (push { withLimits lim with bomLen := n } chunk) =
          ({ withLimits lim with bomLen := m }, ⟨[], none, none⟩) := by
        simp [push, parse, withLimits, hmatch]
      rw [hpush, hspec.2]
      exact .waiting hspec.1
    | complete rest =>
      rw [hmatch] at hspec
      obtain ⟨hread, hstrip⟩ := bomDecided_append rest
      rw [hspec]
      refine tracks_of_agrees rfl hread ?_
      rw [hstrip, parse, if_neg (by simp [withLimits])]
      simp only [hmatch]
      exact feed_agrees (mirrors_start rfl) rfl rest
    | mismatch =>
      rw [hmatch] at hspec
      refine tracks_of_agrees rfl hspec.1 ?_
      rw [hspec.2, parse, if_neg (by simp [withLimits]), scanStream, scan_append, ← scanStream]
      simp only [hmatch]
      -- the bytes held back are fed first, then the chunk
      have hheld : Agrees lim [] (feed { withLimits lim with bomResolved := true } []
          (BOM.take n)) (scanStream lim startScan (BOM.take n)) := feed_agrees (mirrors_start rfl) rfl _
      exact agrees_feed chunk hheld

/-! ## The end of the stream -/

theorem flushLine_snd : d.flushLine.2 =
    if d.lineBuf = [] then .ok (trailingRecord d.fields)
    else
      match d.pushField (fieldOf d.lineBuf) with
      | .error err => .error err
      | .ok d' => .ok (trailingRecord d'.fields) := by
  rw [flushLine]
  by_cases hline : d.lineBuf = []
  · rw [if_pos hline, if_pos (by simpa using hline)]
    by_cases hfields : d.fields = []
    · simp [trailingRecord, hfields]
    · simp [trailingRecord, hfields]
  · have hbuf : ¬ d.lineBuf.isEmpty = true := by simpa using hline
    rw [if_neg hline, if_neg hbuf, processLine, if_neg hbuf, classifyLine_eq]
    cases d.pushField (fieldOf d.lineBuf) with
    | error err => rfl
    | ok d' =>
      by_cases hfields : d'.fields = []
      · simp [trailingRecord, hfields]
      · simp [trailingRecord, hfields]

theorem flushLine_closeStream (h : Mirrors lim base d recs s) :
    closeStream lim (.ok (s.line, s.acc)) =
      match d.flushLine.2 with
      | .error err => ⟨s.acc.1, none, some err.kind⟩
      | .ok trailing => ⟨s.acc.1, trailing, none⟩ := by
  rw [closeStream, flushLine_snd, h.line]
  by_cases hline : s.line = []
  · rw [if_pos hline, if_pos hline, h.fields]
  · have hcommit := pushField_commitField (d := d) (by rw [h.cost, h.fields]) (fieldOf s.line)
    rw [h.sameLimits, h.fields] at hcommit
    rw [if_neg hline, if_neg hline]
    cases hc : commitField lim s.acc.2 (fieldOf s.line) with
    | error kind =>
      rw [hc] at hcommit
      obtain ⟨err, hpush, hkind⟩ := hcommit
      rw [hpush, ← hkind]
    | ok fields =>
      rw [hc] at hcommit
      dsimp only at hcommit
      rw [hcommit]

/-- What the scanner has made of all lines, and the line it is in. -/
def scanned (r : Except Excess (Scan Assembly)) : Except Excess (Bytes × Assembly) := r.map fun s => (s.line, s.acc)

/-- The records completed, before an excess or so far. -/
def completed : Except Excess (Scan Assembly) → List SseRecord
  | .error excess => excess.1
  | .ok s => s.acc.1

/-- The end of a stream, once the bytes held back are fed; they complete no record. -/
theorem finish_of_agrees (hd : d.state = .active) (h : Agrees lim base d.replayBom r) (hrecords : completed r = recs) :
    outcome ⟨recs ++ d.finish.2.records, d.finish.2.trailing, d.finish.2.error⟩ =
      closeStream lim (scanned r) := by
  rw [finish, hd, flush]
  rcases hp : d.replayBom with ⟨d', batch, error⟩
  rw [hp] at h
  subst hrecords
  cases r with
  | error excess =>
    obtain ⟨err, rfl, hkind, -⟩ := h
    obtain ⟨excessRecords, kind⟩ := excess
    obtain rfl : err.kind = kind := hkind
    simp [outcome, closeStream, scanned, Except.map, completed]
  | ok s =>
    obtain ⟨rfl, hm, -⟩ := h
    rw [show scanned (.ok s) = .ok (s.line, s.acc) from rfl, flushLine_closeStream hm]
    dsimp only
    rcases hflush : d'.flushLine with ⟨d'', result⟩
    cases result <;> simp [outcome, completed]

theorem limitedReference_eq {bytes : Bytes} :
    limitedReference lim bytes = closeStream lim (scanned (scanStream lim startScan (stripBom bytes))) := by
  have h : scanned (scanStream lim startScan (stripBom bytes)) = linesResult lim.maxLineBytes lineExcess
      (onLine lim) ([], []) (splitLines ([] ++ skipLf false (stripBom bytes))) :=
    scan_eq_lines _ (Scan.Ok.nil lim.maxLineBytes ([], []) false)
  rw [nil_append, skipLf_false] at h
  rw [limitedReference, h]

theorem finish_tracks (h : Tracks lim (d, recs) read) :
    outcome ⟨recs ++ d.finish.2.records, d.finish.2.trailing, d.finish.2.error⟩ =
      limitedReference lim read := by
  rw [limitedReference_eq]
  cases h with
  | failed hread hscan hd =>
    rw [hscan, finish, hd]
    simp [outcome, scanned, closeStream, Except.map]
  | @reading _ _ _ s hread hscan hm hcr =>
    have hreplay : d.replayBom = ⟨d, [], none⟩ := by simp [replayBom, hm.resolved]
    have hagrees : Agrees lim recs d.replayBom (.ok s) := by
      rw [hreplay]
      exact ⟨rfl, hm.rebase, hcr⟩
    rw [hscan]
    exact finish_of_agrees hm.active hagrees hm.records
  | @waiting n hn =>
    rw [stripBom_take n hn]
    rcases Nat.eq_zero_or_pos n with rfl | hpos
    · rfl
    · have hdata : ∀ b ∈ BOM.take n, isTerminator b = false := fun b hb =>
        (by decide : ∀ b ∈ BOM, isTerminator b = false) b (mem_of_mem_take hb)
      have hne : BOM.take n ≠ [] := by simp [hpos.ne', BOM]
      have hreplay : Agrees lim [] (replayBom { withLimits lim with bomLen := n })
          (scanStream lim startScan (BOM.take n)) := by
        rw [replayBom, if_pos (by simp [withLimits, hpos])]
        exact feed_agrees (mirrors_start rfl) rfl _
      have hrun : scanStream lim startScan (BOM.take n) = if lim.maxLineBytes < 0 + (BOM.take n).length
          then .error (lineExcess ([], [])) else .ok ⟨BOM.take n, false, ([], [])⟩ :=
        scan_run _ hdata hne (zero_le _)
      refine finish_of_agrees rfl hreplay ?_
      rw [hrun]
      by_cases hlong : lim.maxLineBytes < 0 + (BOM.take n).length
      · rw [if_pos hlong]
        rfl
      · rw [if_neg hlong]
        rfl

/-- However the stream is cut, the decoder reports what the reference parser with limits finds. -/
theorem decodeChunks_outcome (lim : SseLimits) (chunks : List Bytes) :
    (decodeChunks lim chunks).outcome = limitedReference lim chunks.flatten := by
  have hstart : Tracks lim (withLimits lim, []) [] := .waiting (n := 0) (by decide)
  have h := chunks_invariant (R := Tracks lim) (fun p read chunk hp => push_tracks hp chunk) chunks hstart
  rw [nil_append] at h
  exact finish_tracks h

theorem decodeChunks_within (h : WithinLimits lim chunks.flatten) :
    decodeChunks lim chunks = ⟨(reference chunks.flatten).1, (reference chunks.flatten).2, none⟩ := by
  have houtcome := decodeChunks_outcome lim chunks
  rw [limitedReference_within h] at houtcome
  rcases hd : decodeChunks lim chunks with ⟨recs, trailing, error⟩
  rw [hd, outcome, Outcome.mk.injEq, Option.map_eq_none_iff] at houtcome
  obtain ⟨rfl, rfl, rfl⟩ := houtcome
  rfl

theorem withinLimits_of_no_error (h : (decodeChunks lim chunks).error = none) : WithinLimits lim chunks.flatten := by
  have herror := congrArg Outcome.error (decodeChunks_outcome lim chunks)
  rw [outcome, h] at herror
  exact limitedReference_excess herror.symm

/-- A stream within the limits is decoded as the reference parser reads it, however it is cut. A
stream that exceeds a limit gives an error, and every cut gives the same records before it and
the same kind of error. -/
theorem decodeChunks_reference (lim : SseLimits) (chunks : List Bytes) :
    (WithinLimits lim chunks.flatten →
      decodeChunks lim chunks = ⟨(reference chunks.flatten).1, (reference chunks.flatten).2, none⟩) ∧
    (¬ WithinLimits lim chunks.flatten →
      (decodeChunks lim chunks).error.isSome ∧
      ∀ chunks' : List Bytes, chunks'.flatten = chunks.flatten →
        (decodeChunks lim chunks').records = (decodeChunks lim chunks).records ∧
        (decodeChunks lim chunks').trailing = (decodeChunks lim chunks).trailing ∧
        (decodeChunks lim chunks').error.map SseDecodeError.kind =
          (decodeChunks lim chunks).error.map SseDecodeError.kind) := by
  refine ⟨decodeChunks_within, fun hexcess => ⟨?_, fun chunks' hsame => ?_⟩⟩
  · rw [Option.isSome_iff_ne_none]
    exact fun hnone => hexcess (withinLimits_of_no_error hnone)
  · have houtcome' := decodeChunks_outcome lim chunks'
    rw [hsame, ← decodeChunks_outcome lim chunks, outcome, outcome, Outcome.mk.injEq] at houtcome'
    exact houtcome'

/-- A stream cut inside the byte order mark, a field name and two CR LF pairs. -/
def cutStream : List Bytes :=
  [[0xEF], [0xBB, 0xBF] ++ ascii "da", ascii "ta: x\r", [], ascii "\nid:1\n\r", ascii "\n"]

theorem cutStream_decoded : WithinLimits .default cutStream.flatten ∧
    decodeChunks .default cutStream = ⟨[⟨[.data (ascii "x"), .id (ascii "1")]⟩], none, none⟩ := by
  have hwithin : WithinLimits .default cutStream.flatten := by decide +kernel
  refine ⟨hwithin, ?_⟩
  rw [(decodeChunks_reference .default cutStream).1 hwithin]
  decide +kernel

end Praxis.Sse
