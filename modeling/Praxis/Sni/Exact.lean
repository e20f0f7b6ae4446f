/-
What an accepted `ClientHello` is made of. The extension block and the server name list in it are read to
their ends, and neither can be read in two ways. The parser does not look behind the extension block,
though: a body is one hello exactly if nothing follows there.
-/
import Praxis.Sni.Record

namespace Praxis.Sni

open Extension List Option

open Praxis.Lib (loop loop_inv utf8 bind_eq_ok ok_bind)
open Praxis.Lib.Wire

/-! ## Hellos as structures -/

/-- The fields of a hello: after the compression methods there is nothing, or one block of extensions. -/
@[ext] structure HelloStructure where
  fixed : List UInt8
  sessionId : List UInt8
  cipherSuites : List UInt8
  compressionMethods : List UInt8
  block : Option (List Extension)
  fixedSize : fixed.length = clientHelloFixedLen
  sessionIdSize : sessionId.length < 256
  cipherSuitesSize : cipherSuites.length < 65536
  compressionMethodsSize : compressionMethods.length < 256
  blockSize : ∀ extensions ∈ block, (extensions.flatMap Extension.encode).length < 65536

def HelloStructure.encode (hello : HelloStructure) : List UInt8 :=
  hello.fixed ++ (field8 hello.sessionId ++ (field16 hello.cipherSuites ++ (field8 hello.compressionMethods ++
    hello.block.elim [] fun extensions => field16 (extensions.flatMap Extension.encode))))

/-- The data of an extension, if it is a server name extension. -/
def Extension.serverName (e : Extension) : Option (List UInt8) := if e.kind = extensionTypeSni then some e.data else none

/-- The name of an entry, if it is a host name. -/
def ServerName.host (entry : ServerName) : Option (List UInt8) :=
  if entry.nameType = sniNameTypeHost then some entry.name else none

/-- The data is one server name list and no other, with the host name as its only one. -/
def NamesHost (data : List UInt8) (sni : Option String) : Prop :=
  ∃ names : List ServerName, data = field16 (names.flatMap ServerName.encode) ∧
    (∀ others : List ServerName, data = field16 (others.flatMap ServerName.encode) → others = names) ∧
    names.filterMap ServerName.host = (sni.map utf8).toList

/-- The body is one hello and no other. It has at most one server name extension, and the name is the host
name in it. -/
def ExactHello (body : List UInt8) (sni : Option String) : Prop :=
  ∃ hello : HelloStructure, hello.encode = body ∧ (∀ other : HelloStructure, other.encode = body → other = hello) ∧
    ((hello.block.getD []).filterMap serverName = [] ∧ sni = none ∨
      ∃ data, (hello.block.getD []).filterMap serverName = [data] ∧ NamesHost data sni)

/-- What the body has behind the extension block that its length announces. -/
def extensionsTail (data : List UInt8) : Except SniParseError (List UInt8) := do
  let pos ← skipVariableU8 data clientHelloFixedLen
  let pos ← skipVariableU16 data pos
  let pos ← skipVariableU8 data pos
  if data.length ≤ pos then .ok []
  else
    let len ← readU16 data pos
    .ok (data.drop (pos + 2 + len))

/-! ## Encodings are read in one way -/

variable {a b xs ys data : List UInt8} {info : ClientHelloInfo} {n pos next : Nat}

theorem field8_append_inj (ha : a.length < 256) (hb : b.length < 256) (h : field8 a ++ xs = field8 b ++ ys) :
    a = b ∧ xs = ys := by
  obtain ⟨hlen, h⟩ := cons.inj h
  rw [← UInt8.toNat_inj, UInt8.toNat_ofNat', UInt8.toNat_ofNat', Nat.mod_eq_of_lt ha, Nat.mod_eq_of_lt hb] at hlen
  exact append_inj h hlen

theorem field16_append_inj (ha : a.length < 65536) (hb : b.length < 65536) (h : field16 a ++ xs = field16 b ++ ys) :
    a = b ∧ xs = ys := by
  rw [field16, field16, append_assoc, append_assoc] at h
  obtain ⟨hlen, h⟩ := append_inj h rfl
  exact append_inj h (be16_inj ha hb hlen)

theorem serverNames_inj {names others : List ServerName}
    (h : names.flatMap ServerName.encode = others.flatMap ServerName.encode) : names = others := by
  have hne : ∀ entry : ServerName, entry.encode ≠ [] := fun _ => cons_ne_nil _ _
  refine flatMap_inj hne ?_ h
  rintro ⟨_, _, hname⟩ ⟨_, _, hname'⟩ xs ys h
  obtain ⟨rfl, h⟩ := cons.inj h
  obtain ⟨rfl, rfl⟩ := field16_append_inj hname hname' h
  exact ⟨rfl, rfl⟩

theorem extensions_inj {extensions others : List Extension}
    (h : extensions.flatMap Extension.encode = others.flatMap Extension.encode) : extensions = others := by
  have hne : ∀ e : Extension, e.encode ≠ [] := fun _ => cons_ne_nil _ _
  refine flatMap_inj hne ?_ h
  rintro ⟨_, _, hkind, hdata⟩ ⟨_, _, hkind', hdata'⟩ xs ys h
  simp only [Extension.encode, append_assoc] at h
  obtain ⟨hkinds, hrest⟩ := append_inj h rfl
  obtain rfl := be16_inj hkind hkind' hkinds
  obtain ⟨rfl, rfl⟩ := field16_append_inj hdata hdata' hrest
  exact ⟨rfl, rfl⟩

theorem HelloStructure.fields_inj (hello other : HelloStructure)
    (h : hello.fixed ++ (field8 hello.sessionId ++ (field16 hello.cipherSuites ++ (field8 hello.compressionMethods ++ xs))) =
      other.fixed ++ (field8 other.sessionId ++ (field16 other.cipherSuites ++ (field8 other.compressionMethods ++ ys)))) :
    (hello.fixed = other.fixed ∧ hello.sessionId = other.sessionId ∧ hello.cipherSuites = other.cipherSuites ∧
      hello.compressionMethods = other.compressionMethods) ∧ xs = ys := by
  obtain ⟨hfixed, h⟩ := append_inj h (hello.fixedSize.trans other.fixedSize.symm)
  obtain ⟨hsessionId, h⟩ := field8_append_inj hello.sessionIdSize other.sessionIdSize h
  obtain ⟨hcipherSuites, h⟩ := field16_append_inj hello.cipherSuitesSize other.cipherSuitesSize h
  obtain ⟨hcompressionMethods, h⟩ := field8_append_inj hello.compressionMethodsSize other.compressionMethodsSize h
  exact ⟨⟨hfixed, hsessionId, hcipherSuites, hcompressionMethods⟩, h⟩

theorem HelloStructure.encode_inj {hello other : HelloStructure} (h : hello.encode = other.encode) : hello = other := by
  obtain ⟨⟨hfixed, hsessionId, hcipherSuites, hcompressionMethods⟩, hblock⟩ := hello.fields_inj other h
  refine HelloStructure.ext hfixed hsessionId hcipherSuites hcompressionMethods ?_
  revert hblock
  cases hello.block <;> cases other.block <;> intro hblock
  case none.none => rfl
  case some.some => exact congrArg some (extensions_inj (append_inj hblock rfl).2)
  all_goals cases hblock

/-! ## What the loops have walked over -/

/-- Items make up all bytes but the rest, and of those that count there is at most one. -/
def Walked {ι : Type} (encode : ι → List UInt8) (chosen : ι → Option (List UInt8)) (all rest : List UInt8)
    (found : Option (List UInt8)) : Prop :=
  ∃ items : List ι, all = items.flatMap encode ++ rest ∧ items.filterMap chosen = found.toList

section

variable {ι : Type} {encode : ι → List UInt8} {chosen : ι → Option (List UInt8)} {all rest : List UInt8}
  {found found' : Option (List UInt8)}

theorem Walked.step {i : ι} (h : Walked encode chosen all (encode i ++ rest) found)
    (hfound : chosen i = none ∧ found' = found ∨ found = none ∧ found' = chosen i) : Walked encode chosen all rest found' := by
  obtain ⟨items, hall, hitems⟩ := h
  refine ⟨items ++ [i], by rw [hall]; simp, ?_⟩
  rw [filterMap_append, hitems]
  rcases hfound with ⟨hi, rfl⟩ | ⟨rfl, rfl⟩
  · simp [hi]
  · cases hi : chosen i <;> simp [hi]

end

theorem names_walked (h : loop namesPass n (data, none) = some (.ok info)) :
    Walked ServerName.encode ServerName.host data [] (info.sni.map utf8) := by
  refine loop_inv (I := fun state => Walked ServerName.encode ServerName.host data state.1 (state.2.map utf8))
    (Q := fun result => ∀ info, result = .ok info → Walked ServerName.encode ServerName.host data [] (info.sni.map utf8))
    ?_ ?_ ⟨[], rfl, rfl⟩ h info rfl
  · intro state state' hstate hagain
    obtain ⟨entry, hlist, hfound⟩ := nextName_ok (namesPass_again hagain)
    rw [hlist] at hstate
    refine hstate.step ?_
    rw [ServerName.host]
    split at hfound
    case isTrue htype => exact .inr ⟨congrArg (Option.map utf8) hfound.1, by rw [if_pos htype, hfound.2]⟩
    case isFalse htype => exact .inl ⟨if_neg htype, congrArg (Option.map utf8) hfound⟩
  · rintro ⟨list, hostname⟩ result hstate hstop info rfl
    simp only [namesPass] at hstop
    split at hstop
    · split at hstop <;> cases hstop
    · split at hstop
      · rename_i hempty
        cases hstop
        rwa [List.isEmpty_iff.1 hempty] at hstate
      · cases hstop

theorem extensions_walked (h : loop extensionsPass n (data, none) = some (.ok info)) : ∃ found,
      Walked Extension.encode Extension.serverName data [] found ∧
      found.elim (.ok { sni := none }) parseSniExtension = .ok info := by
  refine loop_inv (I := fun state => Walked Extension.encode Extension.serverName data state.1 state.2)
    (Q := fun result => ∀ info, result = .ok info → ∃ found, Walked Extension.encode Extension.serverName data [] found ∧
      found.elim (.ok { sni := none }) parseSniExtension = .ok info) ?_ ?_ ⟨[], rfl, rfl⟩ h info rfl
  · intro state state' hstate hagain
    obtain ⟨e, hext, hfound⟩ := nextExtension_ok (extensionsPass_again hagain)
    rw [hext] at hstate
    refine hstate.step ?_
    rw [Extension.serverName]
    split at hfound
    case isTrue htype => exact .inr ⟨hfound.1, by rw [if_pos htype, hfound.2]⟩
    case isFalse htype => exact .inl ⟨if_neg htype, hfound⟩
  · rintro ⟨ext, sniExt⟩ result hstate hstop info rfl
    simp only [extensionsPass] at hstop
    split at hstop
    · split at hstop <;> cases hstop
    · split at hstop
      · rename_i hempty
        rw [isEmpty_iff.1 hempty] at hstate
        exact ⟨sniExt, hstate, by injection hstop⟩
      · cases hstop

/-! ## What the parser accepts -/

theorem loop_of_getD {α : Type} {result : Option (Except SniParseError α)} {error : SniParseError} {a : α}
    (h : result.getD (.error error) = .ok a) : result = some (.ok a) := by
  cases result with
  | none => cases h
  | some found => exact congrArg some h

theorem parseSniExtension_ok (h : parseSniExtension data = .ok info) : NamesHost data info.sni := by
  obtain ⟨len, hlen, h⟩ := bind_eq_ok h
  split at h
  · cases h
  rename_i hlength
  rw [not_not] at hlength
  obtain ⟨list, hslice, hloop⟩ := bind_eq_ok h
  obtain ⟨field, rfl, -, hdata, hfield⟩ := field16_of_readU16 hlen (by omega)
  rw [Nat.zero_add] at hfield hdata
  cases hfield.symm.trans hslice
  rw [drop_zero, drop_of_length_le (Nat.le_of_eq hlength), append_nil] at hdata
  obtain ⟨names, hnames, hhost⟩ := names_walked (loop_of_getD hloop)
  rw [append_nil] at hnames
  refine ⟨names, by rw [hdata, hnames], fun others hothers => ?_, hhost⟩
  rw [hdata, hnames] at hothers
  exact serverNames_inj (append_inj hothers rfl).2.symm

theorem skipVariableU8_ok (h : skipVariableU8 data pos = .ok next) :
    ∃ field : List UInt8, field.length < 256 ∧ data.drop pos = field8 field ++ data.drop next := by
  rw [skipVariableU8] at h
  split at h
  · cases h
  rename_i lenByte hget
  split at h
  · cases h
  rename_i hfits
  cases h
  obtain ⟨hpos, hbyte⟩ := List.getElem?_eq_some_iff.1 hget
  have hlength : ((data.drop (pos + 1)).take lenByte.toNat).length = lenByte.toNat := by
    rw [List.length_take, List.length_drop]
    omega
  have hsplit := List.take_append_drop lenByte.toNat (data.drop (pos + 1))
  rw [List.drop_drop] at hsplit
  refine ⟨(data.drop (pos + 1)).take lenByte.toNat, ?_, ?_⟩
  · rw [hlength]
    exact lenByte.toNat_lt
  · rw [field8, hlength, UInt8.ofNat_toNat, List.cons_append, hsplit, ← hbyte]
    exact List.drop_eq_getElem_cons hpos

theorem skipVariableU16_ok (h : skipVariableU16 data pos = .ok next) :
    ∃ field : List UInt8, field.length < 65536 ∧ data.drop pos = field16 field ++ data.drop next := by
  obtain ⟨len, hlen, h⟩ := bind_eq_ok h
  split at h
  · cases h
  rename_i hfits
  cases h
  obtain ⟨field, rfl, hsize, hdrop, -⟩ := field16_of_readU16 hlen hfits
  exact ⟨field, hsize, hdrop⟩

theorem parseClientHello_ok (h : parseClientHello data = .ok info) :
    ∃ (hello : HelloStructure) (after : List UInt8), hello.encode ++ after = data ∧ extensionsTail data = .ok after ∧
      (hello.block = none → after = []) ∧ ∃ found : Option (List UInt8), (hello.block.getD []).filterMap serverName = found.toList ∧
      found.elim (.ok { sni := none }) parseSniExtension = .ok info := by
  rw [parseClientHello] at h
  split at h
  · cases h
  rename_i hfixed
  obtain ⟨pos1, hpos1, h⟩ := bind_eq_ok h
  obtain ⟨pos2, hpos2, h⟩ := bind_eq_ok h
  obtain ⟨pos3, hpos3, h⟩ := bind_eq_ok h
  obtain ⟨sessionId, hsessionId, hdrop1⟩ := skipVariableU8_ok hpos1
  obtain ⟨cipherSuites, hcipherSuites, hdrop2⟩ := skipVariableU16_ok hpos2
  obtain ⟨compressionMethods, hcompressionMethods, hdrop3⟩ := skipVariableU8_ok hpos3
  have hdata := take_append_drop clientHelloFixedLen data
  rw [hdrop1, hdrop2, hdrop3] at hdata
  have htake : (data.take clientHelloFixedLen).length = clientHelloFixedLen := by rw [length_take]; omega
  have htail : extensionsTail data =
      if data.length ≤ pos3 then .ok [] else readU16 data pos3 >>= fun len => .ok (data.drop (pos3 + 2 + len)) := by
    rw [extensionsTail, hpos1, ok_bind, hpos2, ok_bind, hpos3, ok_bind]
  split at h
  case isTrue hend =>
    cases h
    rw [drop_of_length_le hend] at hdata
    refine ⟨⟨_, _, _, _, none, htake, hsessionId, hcipherSuites, hcompressionMethods, by simp⟩, [], ?_, ?_, fun _ => rfl, none,
      rfl, rfl⟩
    · rw [append_nil]
      exact hdata
    · rw [htail, if_pos hend]
  case isFalse hend =>
    obtain ⟨extensions, hread, hloop⟩ := bind_eq_ok h
    obtain ⟨len, hlen, hread⟩ := bind_eq_ok hread
    split at hread
    · cases hread
    rename_i hfits
    obtain ⟨block, rfl, hsize, hdrop, hslice⟩ := field16_of_readU16 hlen hfits
    cases hslice.symm.trans hread
    obtain ⟨found, ⟨items, hitems, hfound⟩, hinfo⟩ := extensions_walked (loop_of_getD hloop)
    rw [append_nil] at hitems
    refine ⟨⟨_, _, _, _, some items, htake, hsessionId, hcipherSuites, hcompressionMethods, ?_⟩,
      data.drop (pos3 + 2 + extensions.length), ?_, ?_, by rintro ⟨⟩, found, hfound, hinfo⟩
    · rintro _ ⟨⟩
      rwa [← hitems]
    · rw [hdrop] at hdata
      simp only [HelloStructure.encode, append_assoc, elim_some, ← hitems]
      exact hdata
    · rw [htail, if_neg hend, hlen, ok_bind]

theorem exactHello_iff (h : parseClientHello data = .ok info) : ExactHello data info.sni ↔ extensionsTail data = .ok [] := by
  obtain ⟨hello, after, rfl, htail, hnone, found, hfound, hinfo⟩ := parseClientHello_ok h
  rw [htail, Except.ok.injEq]
  constructor
  · rintro ⟨other, hother, -⟩
    simp only [HelloStructure.encode, append_assoc] at hother
    obtain ⟨-, hblock⟩ := other.fields_inj hello hother
    cases hx : hello.block with
    | none => exact hnone hx
    | some extensions =>
      rw [hx, elim_some] at hblock
      cases hy : other.block with
      | none => rw [hy] at hblock; cases hblock
      | some others =>
        rw [hy, elim_some] at hblock
        have hsplit := field16_append_inj (other.blockSize _ hy) (hello.blockSize _ hx)
          ((append_nil _).trans hblock)
        exact hsplit.2.symm
  · rintro rfl
    rw [append_nil]
    refine ⟨hello, rfl, fun other hother => HelloStructure.encode_inj hother, ?_⟩
    cases found with
    | none =>
      cases hinfo
      exact .inl ⟨hfound, rfl⟩
    | some data => exact .inr ⟨data, hfound, parseSniExtension_ok hinfo⟩

/-- A body that `parse_sni` accepts is exactly one hello, with at most one server name extension and at most
one host name, which is the result, exactly if it ends with the extension block. -/
theorem parseSni_exact_iff {buf : List UInt8} {info : ClientHelloInfo} (h : parseSni buf = .ok info) :
    ∃ body, reassembleHandshake buf = .ok body ∧ (ExactHello body info.sni ↔ extensionsTail body = .ok []) := by
  obtain ⟨outcome, hscan⟩ := scanFrom_returns buf .new
  rcases parseSni_of_scan hscan with hanswer | ⟨-, herror | herror⟩
  · cases outcome with
    | complete body =>
      have hbody : reassembleHandshake buf = .ok body := by rw [reassembleHandshake, hscan]
      exact ⟨body, hbody, exactHello_iff ((some.inj hanswer).trans h)⟩
    | failed error => cases (some.inj hanswer).trans h
    | incomplete error r => cases hanswer
  · cases herror.symm.trans h
  · cases herror.symm.trans h

/-- A record with a hello that has the extension block, and bytes behind it. -/
private def recordWith (block behind : List UInt8) : List UInt8 :=
  [22, 3, 1] ++ field16 ([1, 0] ++ field16 (replicate 34 0 ++ [0, 0, 0, 0] ++ field16 block ++ behind))

/-- A server name extension with the host name `a.b`. -/
private def namedBlock : List UInt8 := [0, 0] ++ field16 (field16 ([0] ++ field16 [97, 46, 98]))

theorem parseSni_exact_named : parseSni (recordWith namedBlock []) = .ok { sni := some "a.b" } ∧
    ∃ body, reassembleHandshake (recordWith namedBlock []) = .ok body ∧
      (ExactHello body (some "a.b") ↔ extensionsTail body = .ok []) :=
  have hparse : parseSni (recordWith namedBlock []) = .ok { sni := some "a.b" } := by decide +kernel
  ⟨hparse, parseSni_exact_iff hparse⟩

/-- The length of the extension block is 0, and a byte follows it. -/
theorem parseSni_inexact : parseSni (recordWith [] [7]) = .ok { sni := none } ∧
    ∃ body, reassembleHandshake (recordWith [] [7]) = .ok body ∧ ¬ ExactHello body none := by
  have hparse : parseClientHello (replicate 34 0 ++ [0, 0, 0, 0, 0, 0, 7]) = .ok { sni := none } := by decide +kernel
  have htail : extensionsTail (replicate 34 0 ++ [0, 0, 0, 0, 0, 0, 7]) = .ok [7] := by decide +kernel
  refine ⟨by decide +kernel, replicate 34 0 ++ [0, 0, 0, 0, 0, 0, 7], by decide +kernel, ?_⟩
  intro hexact
  cases htail.symm.trans ((exactHello_iff hparse).1 hexact)

end Praxis.Sni
