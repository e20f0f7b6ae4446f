/-
The body of a `ClientHello`: the fields before the extensions are skipped, the extensions are walked to
the end, and the host name is taken from the one server name extension. A well-formed hello, with
whatever else it carries, gives its host name.
-/
import Praxis.Lib.Except
import Praxis.Lib.Loop
import Praxis.Lib.Wire
import Praxis.Sni.Host

namespace Praxis.Sni

open List Option Nat

open Praxis.Lib (Pass loop loop_succ_again loop_succ_stop loop_eq_of_measure loop_items utf8 fromUtf8_eq_some_iff bind_eq_ok ok_bind)
open Praxis.Lib.Wire

structure ClientHelloInfo where
  sni : Option String
deriving Repr, DecidableEq

/-! ## Fields -/

variable (data : List UInt8)

def readU16 (offset : Nat) : Except SniParseError Nat := (nat16? data offset).elim (.error .malformedExtension) .ok

def readU24 (offset : Nat) : Except SniParseError Nat := (nat24? data offset).elim (.error .malformedExtension) .ok

/-- A sub-slice that the parser has seen to be there. -/
def slice (data : List UInt8) (start stop : Nat) : Except SniParseError (List UInt8) :=
  (slice? data start stop).elim (.error .malformedExtension) .ok

def skipVariableU8 (pos : Nat) : Except SniParseError Nat :=
  match data[pos]? with
  | none => .error .malformedExtension
  | some lenByte =>
    if data.length < pos + 1 + lenByte.toNat then .error .malformedExtension else .ok (pos + 1 + lenByte.toNat)

def skipVariableU16 (pos : Nat) : Except SniParseError Nat := do
  let len ← readU16 data pos
  if data.length < pos + 2 + len then .error .malformedExtension else .ok (pos + 2 + len)

def readVariableU16 (pos : Nat) : Except SniParseError (List UInt8) := do
  let len ← readU16 data pos
  if data.length < pos + 2 + len then .error .malformedExtension else slice data (pos + 2) (pos + 2 + len)

/-! ## The server name extension -/

def sniNameTypeHost : UInt8 := 0

/-- One entry of the server name list: what is left of the list, and the host name found so far. -/
def nextName (list : List UInt8) (hostname : Option String) : Except SniParseError (List UInt8 × Option String) := do
  let nameType ← list.head?.elim (.error .malformedExtension) .ok
  let nameLen ← readU16 list 1
  if list.length < 3 + nameLen then .error .malformedExtension
  else if nameType = sniNameTypeHost then
    if hostname.isSome then .error .malformedExtension
    else
      let nameBytes ← slice list 3 (3 + nameLen)
      let name ← hostName nameBytes
      .ok (list.drop (3 + nameLen), some name)
  else .ok (list.drop (3 + nameLen), hostname)

/-- The loop of `parse_sni_extension` -/
def namesPass : List UInt8 × Option String → Pass (List UInt8 × Option String) (Except SniParseError ClientHelloInfo)
  | (list, hostname) =>
    if 3 ≤ list.length then
      match nextName list hostname with
      | .ok state => .again state
      | .error error => .stop (.error error)
    else .stop (if list.isEmpty then .ok { sni := hostname } else .error .malformedExtension)

def parseSniExtension : Except SniParseError ClientHelloInfo := do
  let listLen ← readU16 data 0
  if data.length ≠ 2 + listLen then .error .malformedExtension
  else
    let list ← slice data 2 (2 + listLen)
    (loop namesPass (list.length + 1) (list, none)).getD (.error .malformedExtension)

/-! ## Extensions -/

def extensionTypeSni : Nat := 0

/-- One extension: what is left of the block, and the server name extension found so far. -/
def nextExtension (ext : List UInt8) (sniExt : Option (List UInt8)) :
    Except SniParseError (List UInt8 × Option (List UInt8)) := do
  let extType ← readU16 ext 0
  let extLen ← readU16 ext 2
  if ext.length < 4 + extLen then .error .malformedExtension
  else
    let extData ← slice ext 4 (4 + extLen)
    if extType = extensionTypeSni then
      if sniExt.isSome then .error .malformedExtension else .ok (ext.drop (4 + extLen), some extData)
    else .ok (ext.drop (4 + extLen), sniExt)

/-- The loop of `parse_extensions` -/
def extensionsPass : List UInt8 × Option (List UInt8) →
    Pass (List UInt8 × Option (List UInt8)) (Except SniParseError ClientHelloInfo)
  | (ext, sniExt) =>
    if 4 ≤ ext.length then
      match nextExtension ext sniExt with
      | .ok state => .again state
      | .error error => .stop (.error error)
    else if ext.isEmpty then .stop (sniExt.elim (.ok { sni := none }) parseSniExtension)
    else .stop (.error .malformedExtension)

def parseExtensions (ext : List UInt8) : Except SniParseError ClientHelloInfo :=
  (loop extensionsPass (ext.length + 1) (ext, none)).getD (.error .malformedExtension)

def clientHelloFixedLen : Nat := 34

def parseClientHello : Except SniParseError ClientHelloInfo :=
  if data.length < clientHelloFixedLen then .error .malformedExtension
  else do
    let pos ← skipVariableU8 data clientHelloFixedLen
    let pos ← skipVariableU16 data pos
    let pos ← skipVariableU8 data pos
    if data.length ≤ pos then .ok { sni := none }
    else
      let extensions ← readVariableU16 data pos
      parseExtensions extensions

variable {state : List UInt8 × Option String} {data field : List UInt8} {pos : Nat}

/-! ## Encodings -/

/-- A field after its length in one byte. -/
def field8 (field : List UInt8) : List UInt8 := UInt8.ofNat field.length :: field

/-- A field after its length in two bytes. -/
def field16 (field : List UInt8) : List UInt8 := be16 field.length ++ field

@[simp] theorem length_field8 : (field8 field).length = 1 + field.length := by
  rw [field8, List.length_cons, Nat.add_comm]

@[simp] theorem length_field16 : (field16 field).length = 2 + field.length := by
  rw [field16, length_append, length_be16]

/-- An entry of the server name list. -/
structure ServerName where
  nameType : UInt8
  name : List UInt8
  size : name.length < 65536

def ServerName.encode (entry : ServerName) : List UInt8 := entry.nameType :: field16 entry.name

structure Extension where
  kind : Nat
  data : List UInt8
  kindSize : kind < 65536
  dataSize : data.length < 65536

def Extension.encode (extension : Extension) : List UInt8 := be16 extension.kind ++ field16 extension.data

/-! ## What the parser has read -/

variable {n m kind : Nat} {list ext name rest : List UInt8} {hostname : Option String} {sniExt : Option (List UInt8)}
  {state' : List UInt8 × Option String} {result : Except SniParseError ClientHelloInfo}

theorem readU16_ok (h : readU16 data pos = .ok n) : nat16? data pos = some n := by
  rw [readU16] at h
  cases hread : nat16? data pos with
  | none => rw [hread] at h; cases h
  | some m => rw [hread] at h; exact congrArg some (Except.ok.inj h)

theorem field16_of_readU16 {len : Nat} (h : readU16 data pos = .ok len) (hfits : ¬ data.length < pos + 2 + len) :
    ∃ field, field.length = len ∧ len < 65536 ∧ data.drop pos = field16 field ++ data.drop (pos + 2 + len) ∧
      slice data (pos + 2) (pos + 2 + len) = .ok field := by
  obtain ⟨hdrop, hlen⟩ := nat16?_drop (readU16_ok h)
  have hlength : ((data.drop (pos + 2)).take len).length = len := by
    rw [List.length_take, List.length_drop]
    omega
  have hsplit := List.take_append_drop len (data.drop (pos + 2))
  rw [List.drop_drop] at hsplit
  refine ⟨(data.drop (pos + 2)).take len, hlength, hlen, ?_, ?_⟩
  · rw [hdrop, field16, hlength, List.append_assoc, hsplit]
  · rw [slice, slice?_eq_some_iff.2 ⟨⟨by omega, Nat.not_lt.1 hfits⟩, rfl⟩, Option.elim_some, List.drop_take,
      Nat.add_sub_cancel_left]

theorem hostName_utf8 {nameBytes : List UInt8} {name : String} (h : hostName nameBytes = .ok name) :
    utf8 name = nameBytes := by
  rw [hostName] at h
  split at h
  · cases h
  · split at h
    · cases h
    · rename_i found hfound
      obtain ⟨-, -, h⟩ := bind_eq_ok h
      obtain ⟨-, -, h⟩ := bind_eq_ok h
      cases h
      exact (fromUtf8_eq_some_iff.1 hfound).symm

theorem nextName_ok (h : nextName list hostname = .ok state) :
    ∃ entry : ServerName, list = entry.encode ++ state.1 ∧
      if entry.nameType = sniNameTypeHost then hostname = none ∧ state.2.map utf8 = some entry.name
      else state.2 = hostname := by
  obtain ⟨nameType, hhead, h⟩ := bind_eq_ok h
  obtain ⟨nameLen, hlen, h⟩ := bind_eq_ok h
  split at h
  · cases h
  rename_i hfits
  obtain ⟨field, rfl, hsize, hdrop, hslice⟩ := field16_of_readU16 hlen (by omega)
  have hlist : ∀ rest, rest = list.drop (3 + field.length) →
      list = (⟨nameType, field, hsize⟩ : ServerName).encode ++ rest := by
    rintro rest rfl
    cases list with
    | nil => cases hhead
    | cons first list =>
      cases hhead
      exact congrArg (cons _) hdrop
  split at h
  case isTrue htype =>
    split at h
    · cases h
    · rename_i hnone
      obtain ⟨nameBytes, hbytes, h⟩ := bind_eq_ok h
      obtain ⟨name, hname, h⟩ := bind_eq_ok h
      cases h
      cases hslice.symm.trans hbytes
      refine ⟨_, hlist _ rfl, ?_⟩
      rw [if_pos htype]
      exact ⟨by simpa using hnone, congrArg some (hostName_utf8 hname)⟩
  case isFalse htype =>
    cases h
    refine ⟨_, hlist _ rfl, ?_⟩
    rw [if_neg htype]

/-- An extension of the block is taken off; a server name extension only if it is the first. -/
theorem nextExtension_ok {state : List UInt8 × Option (List UInt8)} (h : nextExtension ext sniExt = .ok state) :
    ∃ e : Extension, ext = e.encode ++ state.1 ∧
      if e.kind = extensionTypeSni then sniExt = none ∧ state.2 = some e.data else state.2 = sniExt := by
  obtain ⟨extType, hkind, h⟩ := bind_eq_ok h
  obtain ⟨extLen, hlen, h⟩ := bind_eq_ok h
  split at h
  · cases h
  rename_i hfits
  obtain ⟨extData, hbytes, h⟩ := bind_eq_ok h
  obtain ⟨field, rfl, hsize, hdrop, hslice⟩ := field16_of_readU16 hlen hfits
  cases hslice.symm.trans hbytes
  obtain ⟨hstart, hkindSize⟩ := nat16?_drop (readU16_ok hkind)
  have hext : ext = (⟨extType, extData, hkindSize, hsize⟩ : Extension).encode ++ ext.drop (4 + extData.length) := by
    rw [drop_zero, hdrop] at hstart
    rw [Extension.encode, append_assoc]
    exact hstart
  split at h
  case isTrue htype =>
    split at h
    · cases h
    · rename_i hnone
      cases h
      refine ⟨_, hext, ?_⟩
      rw [if_pos htype]
      exact ⟨by simpa using hnone, rfl⟩
  case isFalse htype =>
    cases h
    refine ⟨_, hext, ?_⟩
    rw [if_neg htype]

/-! ## The loops end -/

theorem namesPass_again (h : namesPass state = .again state') : nextName state.1 state.2 = .ok state' := by
  simp only [namesPass] at h
  split at h
  · split at h
    · rename_i hnext
      cases h
      exact hnext
    · cases h
  · cases h

theorem extensionsPass_again {state state' : List UInt8 × Option (List UInt8)}
    (h : extensionsPass state = .again state') : nextExtension state.1 state.2 = .ok state' := by
  simp only [extensionsPass] at h
  split at h
  · split at h
    · rename_i hnext
      cases h
      exact hnext
    · cases h
  · split at h <;> cases h

theorem namesPass_shorter (h : namesPass state = .again state') : state'.1.length < state.1.length := by
  obtain ⟨entry, hlist, -⟩ := nextName_ok (namesPass_again h)
  rw [hlist, length_append, ServerName.encode, length_cons]
  omega

theorem extensionsPass_shorter {state state' : List UInt8 × Option (List UInt8)}
    (h : extensionsPass state = .again state') : state'.1.length < state.1.length := by
  obtain ⟨e, hext, -⟩ := nextExtension_ok (extensionsPass_again h)
  rw [hext, length_append, Extension.encode, length_append, length_be16]
  omega

/-- The names are walked in full: any fuel that gives a result gives this one. -/
theorem names_of_loop (h : loop namesPass m (list, none) = some result) :
    loop namesPass (list.length + 1) (list, none) = some result :=
  loop_eq_of_measure (I := fun _ => True) (fun state => state.1.length)
    (fun _ _ _ hagain => ⟨trivial, namesPass_shorter hagain⟩) trivial (lt_succ_self _) h

theorem parseExtensions_of_loop (h : loop extensionsPass m (ext, none) = some result) : parseExtensions ext = result := by
  have hfull := loop_eq_of_measure (I := fun _ => True) (fun state => state.1.length)
    (fun _ _ _ hagain => ⟨trivial, extensionsPass_shorter hagain⟩) trivial (lt_succ_self _) h
  rw [parseExtensions, hfull, getD_some]

/-! ## Well-formed hellos -/

/-- What a hello with one host name consists of; entries and extensions of other types stand on either
side of it. -/
structure HelloFields where
  fixed : List UInt8
  sessionId : List UInt8
  cipherSuites : List UInt8
  compressionMethods : List UInt8
  namesBefore : List ServerName
  host : String
  namesAfter : List ServerName
  extensionsBefore : List Extension
  extensionsAfter : List Extension

namespace HelloFields

def serverNames (hello : HelloFields) : List UInt8 :=
  hello.namesBefore.flatMap ServerName.encode ++
    (sniNameTypeHost :: field16 (utf8 hello.host) ++ hello.namesAfter.flatMap ServerName.encode)

def extensions (hello : HelloFields) : List UInt8 :=
  hello.extensionsBefore.flatMap Extension.encode ++
    (be16 extensionTypeSni ++ field16 (field16 hello.serverNames) ++ hello.extensionsAfter.flatMap Extension.encode)

/-- The body of the handshake message. -/
def body (hello : HelloFields) : List UInt8 :=
  hello.fixed ++ (field8 hello.sessionId ++ (field16 hello.cipherSuites ++
    (field8 hello.compressionMethods ++ field16 hello.extensions)))

end HelloFields

/-- A well-formed `ClientHello` with one host name, which the host validation accepts. -/
structure ClientHello extends HelloFields where
  fixedSize : fixed.length = clientHelloFixedLen
  sessionIdSize : sessionId.length < 256
  cipherSuitesSize : cipherSuites.length < 65536
  compressionMethodsSize : compressionMethods.length < 256
  otherNames : ∀ entry ∈ namesBefore ++ namesAfter, entry.nameType ≠ sniNameTypeHost
  otherExtensions : ∀ extension ∈ extensionsBefore ++ extensionsAfter, extension.kind ≠ extensionTypeSni
  extensionsSize : toHelloFields.extensions.length < 65536
  accepted : hostName (utf8 host) = .ok host

/-! ## Reading fields back -/

variable (before after : List UInt8)

theorem readU16_between {offset : Nat} (hdata : data = before ++ (be16 n ++ after)) (hoffset : offset = before.length)
    (hn : n < 65536) : readU16 data offset = .ok n := by
  rw [readU16, nat16?_between before after hdata hoffset hn, elim_some]

theorem slice_between {found : List UInt8} {start stop : Nat} (hdata : data = before ++ (found ++ after))
    (hstart : start = before.length) (hstop : stop = start + found.length) : slice data start stop = .ok found := by
  rw [slice, slice?_between before after hdata hstart hstop, elim_some]

theorem skipVariableU8_between (hdata : data = before ++ (field8 field ++ after)) (hpos : pos = before.length)
    (hsize : field.length < 256) : skipVariableU8 data pos = .ok (pos + 1 + field.length) := by
  subst hdata hpos
  have hlen : (UInt8.ofNat field.length).toNat = field.length := by
    rw [UInt8.toNat_ofNat', Nat.mod_eq_of_lt hsize]
  have hget : (before ++ (field8 field ++ after))[before.length]? = some (UInt8.ofNat field.length) := by
    rw [List.getElem?_append_right (Nat.le_refl _), Nat.sub_self]
    rfl
  simp only [skipVariableU8, hget, hlen]
  rw [if_neg]
  simp only [List.length_append, length_field8]
  omega

section

variable (hdata : data = before ++ (field16 field ++ after)) (hpos : pos = before.length)
  (hsize : field.length < 65536)
include hdata hpos hsize

theorem skipVariableU16_between : skipVariableU16 data pos = .ok (pos + 2 + field.length) := by
  rw [field16, append_assoc] at hdata
  rw [skipVariableU16, readU16_between _ _ hdata hpos hsize, ok_bind, if_neg]
  rw [hdata, hpos]
  simp only [length_append, length_be16]
  omega

theorem readVariableU16_between : readVariableU16 data pos = .ok field := by
  rw [field16, append_assoc] at hdata
  rw [readVariableU16, readU16_between _ _ hdata hpos hsize, ok_bind, if_neg]
  · have hdata' : data = (before ++ be16 field.length) ++ (field ++ after) := by rw [hdata, append_assoc]
    exact slice_between _ _ hdata' (by rw [hpos, length_append, length_be16]) rfl
  · rw [hdata, hpos]
    simp only [length_append, length_be16]
    omega

end

/-! ## The host name is found -/

theorem nextName_entry (nameType : UInt8) (hsize : name.length < 65536) (hostname : Option String) :
    nextName (nameType :: field16 name ++ rest) hostname =
      if nameType = sniNameTypeHost then
        if hostname.isSome then .error .malformedExtension
        else (hostName name).map fun host => (rest, some host)
      else .ok (rest, hostname) := by
  have hread : readU16 (nameType :: field16 name ++ rest) 1 = .ok name.length :=
    readU16_between [nameType] (name ++ rest) (by simp [field16]) rfl hsize
  have hslice : slice (nameType :: field16 name ++ rest) 3 (3 + name.length) = .ok name :=
    slice_between (nameType :: be16 name.length) rest (by simp [field16]) rfl rfl
  have hlen : (nameType :: field16 name).length = 3 + name.length := by rw [length_cons, length_field16]; omega
  have hfits : ¬ (nameType :: field16 name ++ rest).length < 3 + name.length := by rw [length_append]; omega
  have hdrop : (nameType :: field16 name ++ rest).drop (3 + name.length) = rest := by rw [← hlen, drop_left]
  have hhead : (nameType :: field16 name ++ rest).head? = some nameType := rfl
  rw [nextName, hhead, elim_some, ok_bind, hread, ok_bind, if_neg hfits, hslice, hdrop, ok_bind]
  cases hostName name <;> rfl

theorem nextExtension_entry (hkind : kind < 65536) (hsize : data.length < 65536) :
    nextExtension (be16 kind ++ field16 data ++ rest) sniExt =
      if kind = extensionTypeSni then
        if sniExt.isSome then .error .malformedExtension else .ok (rest, some data)
      else .ok (rest, sniExt) := by
  have hkindRead : readU16 (be16 kind ++ field16 data ++ rest) 0 = .ok kind :=
    readU16_between [] (field16 data ++ rest) (by simp) rfl hkind
  have hread : readU16 (be16 kind ++ field16 data ++ rest) 2 = .ok data.length :=
    readU16_between (be16 kind) (data ++ rest) (by simp [field16]) rfl hsize
  have hslice : slice (be16 kind ++ field16 data ++ rest) 4 (4 + data.length) = .ok data :=
    slice_between (be16 kind ++ be16 data.length) rest (by simp [field16]) rfl rfl
  have hlen : (be16 kind ++ field16 data).length = 4 + data.length := by
    rw [length_append, length_field16, length_be16]; omega
  have hfits : ¬ (be16 kind ++ field16 data ++ rest).length < 4 + data.length := by rw [length_append]; omega
  have hdrop : (be16 kind ++ field16 data ++ rest).drop (4 + data.length) = rest := by rw [← hlen, drop_left]
  rw [nextExtension, hkindRead, ok_bind, hread, ok_bind, if_neg hfits, hslice, ok_bind, hdrop]

theorem namesPass_entry {nameType : UInt8} (h : nextName (nameType :: field16 name ++ rest) hostname = .ok state) :
    namesPass (nameType :: field16 name ++ rest, hostname) = .again state := by
  have hlen : 3 ≤ (nameType :: field16 name ++ rest).length := by simp; omega
  simp only [namesPass, if_pos hlen, h]

theorem extensionsPass_entry {state : List UInt8 × Option (List UInt8)}
    (h : nextExtension (be16 kind ++ field16 data ++ rest) sniExt = .ok state) :
    extensionsPass (be16 kind ++ field16 data ++ rest, sniExt) = .again state := by
  have hlen : 4 ≤ (be16 kind ++ field16 data ++ rest).length := by simp; omega
  simp only [extensionsPass, if_pos hlen, h]

theorem names_others {names : List ServerName} (h : ∀ entry ∈ names, entry.nameType ≠ sniNameTypeHost)
    (hostname : Option String) (m : Nat) :
    loop namesPass (names.length + m) (names.flatMap ServerName.encode ++ rest, hostname) =
      loop namesPass m (rest, hostname) := by
  refine loop_items (P := fun entry : ServerName => entry.nameType ≠ sniNameTypeHost)
    (fun names => (names.flatMap ServerName.encode ++ rest, hostname)) (fun entry names hentry => ?_) h
  simp only [flatMap_cons, append_assoc, ServerName.encode]
  refine namesPass_entry ?_
  rw [nextName_entry entry.nameType entry.size, if_neg hentry]

theorem extensions_others {extensions : List Extension} (h : ∀ e ∈ extensions, e.kind ≠ extensionTypeSni) (m : Nat) :
    loop extensionsPass (extensions.length + m) (extensions.flatMap Extension.encode ++ rest, sniExt) =
      loop extensionsPass m (rest, sniExt) := by
  refine loop_items (P := fun e : Extension => e.kind ≠ extensionTypeSni)
    (fun extensions => (extensions.flatMap Extension.encode ++ rest, sniExt)) (fun e extensions he => ?_) h
  simp only [flatMap_cons, append_assoc, Extension.encode]
  rw [← append_assoc]
  refine extensionsPass_entry ?_
  rw [nextExtension_entry e.kindSize e.dataSize, if_neg he]

namespace ClientHello

variable (hello : ClientHello)

theorem hostSize : (utf8 hello.host).length < 65536 := by
  have h := hello.extensionsSize
  simp only [HelloFields.extensions, HelloFields.serverNames, length_append, length_field16, length_cons] at h
  omega

theorem serverNamesSize : hello.serverNames.length + 2 < 65536 := by
  have h := hello.extensionsSize
  simp only [HelloFields.extensions, length_append, length_field16, length_be16] at h
  omega

theorem bodyLength : hello.body.length = clientHelloFixedLen + 1 + hello.sessionId.length + 2 +
    hello.cipherSuites.length + 1 + hello.compressionMethods.length + 2 + hello.extensions.length := by
  simp [HelloFields.body, hello.fixedSize]
  omega

theorem bodySize : hello.body.length < 16777216 := by
  have hlen := hello.bodyLength
  have hsessionId := hello.sessionIdSize
  have hcipherSuites := hello.cipherSuitesSize
  have hcompressionMethods := hello.compressionMethodsSize
  have hextensions := hello.extensionsSize
  simp only [clientHelloFixedLen] at hlen
  omega

theorem parse_serverNames : parseSniExtension (field16 hello.serverNames) = .ok { sni := some hello.host } := by
  have hsize := hello.serverNamesSize
  have hlist : loop namesPass (hello.namesBefore.length + (hello.namesAfter.length + 1 + 1)) (hello.serverNames, none) =
      some (.ok { sni := some hello.host }) := by
    have hbefore := fun entry h => hello.otherNames entry (mem_append_left _ h)
    have hafter := fun entry h => hello.otherNames entry (mem_append_right _ h)
    have hhost : nextName (sniNameTypeHost :: field16 (utf8 hello.host) ++
        hello.namesAfter.flatMap ServerName.encode) none =
          .ok (hello.namesAfter.flatMap ServerName.encode ++ [], some hello.host) := by
      rw [nextName_entry sniNameTypeHost hello.hostSize, if_pos rfl, if_neg (by simp), hello.accepted, append_nil]
      rfl
    rw [HelloFields.serverNames, names_others hbefore, loop_succ_again (namesPass_entry hhost), names_others hafter]
    rfl
  have hread : readU16 (field16 hello.serverNames) 0 = .ok hello.serverNames.length :=
    readU16_between [] hello.serverNames rfl rfl (by omega)
  have hslice : slice (field16 hello.serverNames) 2 (2 + hello.serverNames.length) = .ok hello.serverNames :=
    slice_between (be16 hello.serverNames.length) [] (by rw [field16, append_nil]) rfl rfl
  rw [parseSniExtension, hread, ok_bind, if_neg (by rw [length_field16]; simp), hslice, ok_bind, names_of_loop hlist,
    getD_some]

theorem parse_extensions : parseExtensions hello.extensions = .ok { sni := some hello.host } := by
  have hbefore := fun e h => hello.otherExtensions e (mem_append_left _ h)
  have hafter := fun e h => hello.otherExtensions e (mem_append_right _ h)
  have hsize : (field16 hello.serverNames).length < 65536 := by
    have := hello.serverNamesSize
    rw [length_field16]
    omega
  have hsni : nextExtension (be16 extensionTypeSni ++ field16 (field16 hello.serverNames) ++
      hello.extensionsAfter.flatMap Extension.encode) none =
        .ok (hello.extensionsAfter.flatMap Extension.encode ++ [], some (field16 hello.serverNames)) := by
    rw [nextExtension_entry (by decide) hsize, if_pos rfl, if_neg (by simp), append_nil]
  refine parseExtensions_of_loop (m := hello.extensionsBefore.length + (hello.extensionsAfter.length + 1 + 1)) ?_
  rw [HelloFields.extensions, extensions_others hbefore, loop_succ_again (extensionsPass_entry hsni),
    extensions_others hafter]
  exact congrArg some hello.parse_serverNames

theorem parse_body : parseClientHello hello.body = .ok { sni := some hello.host } := by
  -- the position after each field, as the parser moves on
  have hpos1 : skipVariableU8 hello.body clientHelloFixedLen = .ok (clientHelloFixedLen + 1 + hello.sessionId.length) :=
    skipVariableU8_between _ _ rfl hello.fixedSize.symm hello.sessionIdSize
  have hpos2 : skipVariableU16 hello.body (clientHelloFixedLen + 1 + hello.sessionId.length) =
      .ok (clientHelloFixedLen + 1 + hello.sessionId.length + 2 + hello.cipherSuites.length) :=
    skipVariableU16_between (hello.fixed ++ field8 hello.sessionId)
      (field8 hello.compressionMethods ++ field16 hello.extensions) (by simp [HelloFields.body])
      (by simp [hello.fixedSize]; omega) hello.cipherSuitesSize
  have hpos3 : skipVariableU8 hello.body (clientHelloFixedLen + 1 + hello.sessionId.length + 2 + hello.cipherSuites.length) =
      .ok (clientHelloFixedLen + 1 + hello.sessionId.length + 2 + hello.cipherSuites.length + 1 +
        hello.compressionMethods.length) :=
    skipVariableU8_between (hello.fixed ++ field8 hello.sessionId ++ field16 hello.cipherSuites)
      (field16 hello.extensions) (by simp [HelloFields.body]) (by simp [hello.fixedSize]; omega)
      hello.compressionMethodsSize
  have hextensions : readVariableU16 hello.body (clientHelloFixedLen + 1 + hello.sessionId.length + 2 +
      hello.cipherSuites.length + 1 + hello.compressionMethods.length) = .ok hello.extensions :=
    readVariableU16_between (hello.fixed ++ field8 hello.sessionId ++ field16 hello.cipherSuites ++
      field8 hello.compressionMethods) [] (by simp [HelloFields.body]) (by simp [hello.fixedSize]; omega)
      hello.extensionsSize
  have hlen := hello.bodyLength
  rw [parseClientHello, if_neg (by omega), hpos1, ok_bind, hpos2, ok_bind, hpos3, ok_bind, if_neg (by omega), hextensions,
    ok_bind, hello.parse_extensions]

end ClientHello

end Praxis.Sni
