/-
Header maps as the `http` crate has them: for every name a list of values. The map itself is a
parameter with the documented behaviour of its operations; a list of entries is one such map.
-/
import Praxis.Lib.Utf8

namespace Praxis.Lib

open List

/-! ## Values by name -/

/-- `http::HeaderValue` is its bytes. -/
abbrev HeaderValue := List UInt8

/-- `http::HeaderMap`, and the conversions between header values and text. -/
structure Http (Map : Type) where
  getAll : Map → String → List HeaderValue
  get : Map → String → Option HeaderValue
  containsKey : Map → String → Bool
  remove : Map → String → Map
  insert : Map → String → HeaderValue → Map
  append : Map → String → HeaderValue → Map
  toStr : HeaderValue → Option String
  fromStr : String → Option HeaderValue

/-- The documented behaviour of the header map: `get` reads the first value of a name, `insert`
replaces all of them and `append` adds one behind them; text and value agree byte for byte. -/
structure Http.Laws {Map : Type} (http : Http Map) : Prop where
  get_eq : ∀ m name, http.get m name = (http.getAll m name).head?
  containsKey_eq : ∀ m name, http.containsKey m name = !(http.getAll m name).isEmpty
  getAll_remove : ∀ m name other, http.getAll (http.remove m name) other = if name = other then [] else http.getAll m other
  getAll_insert : ∀ m name val other,
    http.getAll (http.insert m name val) other = if name = other then [val] else http.getAll m other
  getAll_append : ∀ m name val other,
    http.getAll (http.append m name val) other = if name = other then http.getAll m other ++ [val] else http.getAll m other
  bytes_of_toStr : ∀ val text, http.toStr val = some text → val = utf8 text
  bytes_of_fromStr : ∀ text val, http.fromStr text = some val → val = utf8 text

/-- A header map as a list of entries in the order of their arrival. -/
def assocHttp : Http (List (String × HeaderValue)) where
  getAll m name := (m.filter fun entry => entry.1 == name).map (·.2)
  get m name := (m.find? fun entry => entry.1 == name).map (·.2)
  containsKey m name := m.any fun entry => entry.1 == name
  remove m name := m.filter fun entry => entry.1 != name
  insert m name val := (m.filter fun entry => entry.1 != name) ++ [(name, val)]
  append m name val := m ++ [(name, val)]
  toStr val := if val.all (fun b => b == 9 || (32 ≤ b && b < 127)) then fromUtf8 val else none
  fromStr text := if (utf8 text).all (fun b => b == 9 || (32 ≤ b && b != 127)) then some (utf8 text) else none

theorem assocHttp_getAll_remove (m : List (String × HeaderValue)) (name other : String) :
    assocHttp.getAll (assocHttp.remove m name) other = if name = other then [] else assocHttp.getAll m other := by
  simp only [assocHttp, filter_filter]
  split
  case isTrue h => simp [h]
  case isFalse h =>
    congr 2
    funext entry
    by_cases hentry : entry.1 = other
    · simp [hentry, Ne.symm h]
    · simp [hentry]

theorem assocHttp_getAll_append (m : List (String × HeaderValue)) (name : String) (val : HeaderValue) (other : String) :
    assocHttp.getAll (assocHttp.append m name val) other =
      if name = other then assocHttp.getAll m other ++ [val] else assocHttp.getAll m other := by
  by_cases h : name = other <;> simp [assocHttp, h]

theorem assocHttp_laws : assocHttp.Laws where
  get_eq m name := by simp [assocHttp, head?_filter]
  containsKey_eq m name := by
    rw [Bool.eq_iff_iff]
    simp [assocHttp]
  getAll_remove := assocHttp_getAll_remove
  getAll_insert m name val other := by
    have h := assocHttp_getAll_append (assocHttp.remove m name) name val other
    rw [assocHttp_getAll_remove] at h
    split at h <;> simp_all [assocHttp]
  getAll_append := assocHttp_getAll_append
  bytes_of_toStr val text h := by
    simp only [assocHttp] at h
    split at h
    · exact fromUtf8_eq_some_iff.1 h
    · cases h
  bytes_of_fromStr text val h := by
    simp only [assocHttp] at h
    split at h
    · exact (Option.some.inj h).symm
    · cases h

/-! ## Iteration and checked values -/

/-- A header map that is also read as a whole, and `HeaderValue::from_bytes`. -/
structure HttpMap (Map : Type) extends Http Map where
  keys : Map → List String
  iter : Map → List (String × HeaderValue)
  fromBytes : List UInt8 → Option HeaderValue

/-- What `HeaderValue::from_bytes` lets pass: a tab, and everything from the space on but DEL. -/
def permittedByte (b : UInt8) : Bool := b == 9 || (32 ≤ b && b != 127)

structure HttpMap.Laws {Map : Type} (http : HttpMap Map) : Prop extends http.toHttp.Laws where
  mem_keys : ∀ m name, name ∈ http.keys m ↔ http.getAll m name ≠ []
  mem_iter : ∀ m name val, (name, val) ∈ http.iter m ↔ val ∈ http.getAll m name
  fromBytes_eq : ∀ bytes, http.fromBytes bytes = if bytes.all permittedByte then some bytes else none

/-- A header map as the type has it: every value in it passes `HeaderValue::from_bytes`. -/
structure HttpMap.Checked {Map : Type} (http : HttpMap Map) where
  map : Map
  checked : ∀ name, ∀ val ∈ http.getAll map name, (http.fromBytes val).isSome

theorem HttpMap.Checked.permitted {Map : Type} {http : HttpMap Map} (laws : http.Laws) (hs : http.Checked) {name : String}
    {val : HeaderValue} (h : val ∈ http.getAll hs.map name) : val.all permittedByte := by
  have hsome := hs.checked name val h
  rw [laws.fromBytes_eq] at hsome
  split at hsome
  · assumption
  · cases hsome

/-- The list of entries, read as a whole. -/
def assocHttpMap : HttpMap (List (String × HeaderValue)) where
  toHttp := assocHttp
  keys m := (m.map (·.1)).eraseDups
  iter m := m
  fromBytes bytes := if bytes.all permittedByte then some bytes else none

theorem assocHttpMap_laws : assocHttpMap.Laws where
  toLaws := assocHttp_laws
  mem_keys m name := by simp [assocHttpMap, assocHttp]
  mem_iter m name val := by simp [assocHttpMap, assocHttp]
  fromBytes_eq _ := rfl

/-! ## Values as text -/

/-- A tab, or a visible ASCII character: what `to_str` reads. -/
def isVisible (c : Char) : Bool := c == '\t' || (32 ≤ c.toNat && c.toNat < 127)

def Visible (text : List Char) : Prop := ∀ c ∈ text, isVisible c

instance (text : List Char) : Decidable (Visible text) := inferInstanceAs (Decidable (∀ c ∈ text, isVisible c = true))

@[simp] theorem visible_nil : Visible [] := nofun

variable {c : Char} {text : String} {b : UInt8}

@[simp] theorem visible_cons {text : List Char} : Visible (c :: text) ↔ isVisible c ∧ Visible text := by
  simp [Visible]

@[simp] theorem visible_append {xs ys : List Char} : Visible (xs ++ ys) ↔ Visible xs ∧ Visible ys := by
  simp [Visible, or_imp, forall_and]

/-- What `to_str` and `from_str` do with visible text. -/
structure Http.TextLaws {Map : Type} (http : Http Map) : Prop where
  visible_of_toStr : ∀ val text, http.toStr val = some text → Visible text.toList
  fromStr_of_visible : ∀ text, Visible text.toList → http.fromStr text = some (utf8 text)

/-- `to_str` reads every visible text. -/
def Http.ReadsVisible {Map : Type} (http : Http Map) : Prop :=
  ∀ text, Visible text.toList → http.toStr (utf8 text) = some text

theorem isVisible_iff : isVisible c ↔ c.toNat = 9 ∨ (32 ≤ c.toNat ∧ c.toNat < 127) := by
  have htab : c = '\t' ↔ c.toNat = 9 := ⟨fun h => h ▸ rfl, fun h => Char.ext (UInt32.toNat_inj.1 h)⟩
  simp [isVisible, htab]

theorem visible_byte {n : Nat} (hn : n < 128) :
    (UInt8.ofNat n == 9 || (32 ≤ UInt8.ofNat n && UInt8.ofNat n < 127)) = true ↔ n = 9 ∨ (32 ≤ n ∧ n < 127) := by
  have h : (UInt8.ofNat n).toNat = n := UInt8.toNat_ofNat_of_lt' (Nat.lt_trans hn (by decide))
  simp [← UInt8.toNat_inj, UInt8.le_iff_toNat_le, UInt8.lt_iff_toNat_lt, h]

theorem visible_of_mem_utf8 (h : Visible text.toList) (hb : b ∈ utf8 text) : (b == 9 || (32 ≤ b && b < 127)) = true := by
  obtain ⟨c, hc, hb⟩ := mem_flatMap.1 hb
  have hvisible := isVisible_iff.1 (h c hc)
  rcases utf8EncodeChar_cases c with ⟨hn, hencode⟩ | ⟨hn, -⟩
  · rw [hencode, mem_singleton] at hb
    rw [hb]
    exact (visible_byte hn).2 hvisible
  · change c.toNat = 9 ∨ _ at hvisible
    have hnat : 128 ≤ c.toNat := hn
    omega

theorem permittedByte_of_visible (h : Visible text.toList) (hb : b ∈ utf8 text) : permittedByte b := by
  have hbyte := visible_of_mem_utf8 h hb
  simp only [permittedByte, Bool.or_eq_true, Bool.and_eq_true, decide_eq_true_eq, bne_iff_ne] at hbyte ⊢
  exact hbyte.imp_right fun hb => ⟨hb.1, fun h127 => absurd (h127 ▸ hb.2) (by decide)⟩

theorem assocHttp_readsVisible : assocHttp.ReadsVisible := by
  intro text h
  have hall : (utf8 text).all (fun b => b == 9 || (32 ≤ b && b < 127)) = true :=
    all_eq_true.2 fun b hb => visible_of_mem_utf8 h hb
  simp only [assocHttp, hall, if_true]
  exact fromUtf8_eq_some_iff.2 rfl

theorem assocHttp_textLaws : assocHttp.TextLaws where
  visible_of_toStr val text h := by
    have hbytes : val = utf8 text := assocHttp_laws.bytes_of_toStr val text h
    simp only [assocHttp] at h
    split at h
    case isFalse => cases h
    case isTrue hall =>
      intro c hc
      have hmem : ∀ b ∈ String.utf8EncodeChar c, b ∈ val := fun b hb => hbytes ▸ mem_flatMap.2 ⟨c, hc, hb⟩
      rcases utf8EncodeChar_cases c with ⟨hn, hencode⟩ | ⟨hn, hhigh⟩
      · have hb := all_eq_true.1 hall _ (hmem (UInt8.ofNat c.val.toNat) (by simp [hencode]))
        exact isVisible_iff.2 ((visible_byte hn).1 hb)
      · -- a byte above 127 is not visible
        obtain ⟨b, hb⟩ := exists_mem_of_ne_nil _ (utf8EncodeChar_ne_nil c)
        have hvisible := all_eq_true.1 hall b (hmem b hb)
        have hge := UInt8.le_iff_toNat_le.1 (hhigh b hb)
        simp only [Bool.or_eq_true, Bool.and_eq_true, decide_eq_true_eq, beq_iff_eq, UInt8.lt_iff_toNat_lt,
          ← UInt8.toNat_inj] at hvisible
        simp at hvisible hge
        omega
  fromStr_of_visible text h := by
    have hall : (utf8 text).all (fun b => b == 9 || (32 ≤ b && b != 127)) = true :=
      all_eq_true.2 fun b hb => permittedByte_of_visible h hb
    simp only [assocHttp, hall, if_true]

end Praxis.Lib
