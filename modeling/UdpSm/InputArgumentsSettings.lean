import UdpSm.InputArguments
import UdpSm.MjsonDocument

/-! The parameter file as a list of settings: written in any order, with any white space and any
spelling of the strings, they come back as the members of `InputArguments`. -/
namespace UdpSm
open Lib Mjson

namespace InputArguments

def spec : Field → JsonAttr Field
  | .processorCoreId => entry "core_id" .integer .processorCoreId 0
  | .sharedMemoryName => entry "shm_name" .string .sharedMemoryName shmNameLength
  | .networkInterfaceName => entry "iface" .string .networkInterfaceName ifnamsiz
  | .verbose => entry "verbose" .boolean .verbose 0
  | .iPv4MulticastUdpPort => entry "port" .integer .iPv4MulticastUdpPort 0
  | .iPv4MulticastAddress => entry "ip_multicast" .string .iPv4MulticastAddress inetAddrstrlen
  | .configDumpReceivedPacketsInAsciiFormat =>
    entry "dump_pkt" .boolean .configDumpReceivedPacketsInAsciiFormat 0
  | .configDumpReceivedPacketsInHexadecimalFormat =>
    entry "dump_hex" .boolean .configDumpReceivedPacketsInHexadecimalFormat 0
  | .loggingFileName => entry "log_name" .string .loggingFileName lognamsiz
  | .loggingLevel => entry "log_level" .integer .loggingLevel 0

inductive Setting where
  | number (f : Field) (v : Int)
  | flag (f : Field) (b : Bool)
  | text (f : Field) (letters : List Letter)

namespace Setting

def field : Setting → Field
  | .number f _ => f
  | .flag f _ => f
  | .text f _ => f

/-- The value has the type of the member, and the parser takes it. -/
def Accepted : Setting → Prop
  | .number f v => (spec f).type = .integer ∧ -2147483648 ≤ v ∧ v < 2147483648
  | .flag f _ => (spec f).type = .boolean
  | .text f letters => (spec f).type = .string ∧ (∀ l ∈ letters, l.Valid) ∧ letters.length ≤ sizeOfField f

def image : Setting → List UInt8
  | .number _ v => intBytes 4 v
  | .flag _ b => boolByte b
  | .text f letters => filled (sizeOfField f - 1) (cstring (letters.map Letter.byte))

def literal : Setting → Literal
  | .number _ v => .token ((decimal v).headD 0) (decimal v).tail
  | .flag _ true => .token (ch 't') (ascii "rue")
  | .flag _ false => .token (ch 'f') (ascii "alse")
  | .text _ letters => .quoted letters

end Setting

structure Layout where
  before : List UInt8
  colon : List UInt8
  after : List UInt8

structure Layout.Valid (l : Layout) : Prop where
  before : ∀ c ∈ l.before, isspace c = true
  colon : ∀ c ∈ l.colon, isspace c = true ∨ c = ch ':'
  after : ∀ c ∈ l.after, isspace c = true

def member (x : Setting × Layout) : Member where
  before := x.2.before
  name := (spec x.1.field).attributeName
  colon := x.2.colon
  value := x.1.literal
  after := x.2.after

section Table

theorem jsonAttributes_eq : jsonAttributes = [Field.processorCoreId, .sharedMemoryName,
    .networkInterfaceName, .verbose, .iPv4MulticastUdpPort, .iPv4MulticastAddress,
    .configDumpReceivedPacketsInAsciiFormat, .configDumpReceivedPacketsInHexadecimalFormat,
    .loggingFileName, .loggingLevel].map spec := rfl

theorem exists_spec {s : JsonAttr Field} (h : s ∈ jsonAttributes) : ∃ f, s = spec f := by
  rw [jsonAttributes_eq] at h
  obtain ⟨f, -, rfl⟩ := List.mem_map.mp h
  exact ⟨f, rfl⟩

theorem spec_addr (f : Field) : (spec f).addr = f := by cases f <;> rfl
theorem spec_map (f : Field) : (spec f).map = none := by cases f <;> rfl

theorem spec_type (f : Field) :
    (spec f).type = .integer ∨ (spec f).type = .boolean ∨ (spec f).type = .string := by
  cases f <;> simp [spec, entry]

theorem spec_len {f : Field} (h : (spec f).type = .string) :
    (spec f).len = sizeOfField f ∧ 2 < sizeOfField f ∧ sizeOfField f ≤ 256 := by
  revert h
  cases f <;> decide

theorem sizeOfField_integer {f : Field} (h : (spec f).type = .integer) : sizeOfField f = 4 := by
  revert h
  cases f <;> decide

theorem sizeOfField_boolean {f : Field} (h : (spec f).type = .boolean) : sizeOfField f = 1 := by
  revert h
  cases f <;> decide

theorem findAttr_spec (f : Field) : ∃ rest, findAttr jsonAttributes (spec f).attributeName = spec f :: rest ∧
    ∀ next ∈ rest.head?, next.attributeName ≠ (spec f).attributeName := by
  cases f <;> exact ⟨_, rfl, by simp [spec, entry]; try decide⟩

theorem name_short (f : Field) : (spec f).attributeName.length ≤ attrMax - 1 := by
  cases f <;> decide

theorem name_plain (f : Field) : ∀ c ∈ (spec f).attributeName, c ≠ 0 ∧ c ≠ ch '"' := by
  cases f <;> exact forall_of_all (by decide)

def Sized (o : InputArguments) : Prop := ∀ f, (o f).length = sizeOfField f

theorem Sized.room {o : InputArguments} (h : Sized o) : ∀ s ∈ jsonAttributes, Room o s := by
  intro s hs
  obtain ⟨f, rfl⟩ := exists_spec hs
  refine ⟨?_, fun hstring => ?_⟩
  · rw [spec_addr, h f]
    obtain htype | htype | htype := spec_type f
    · rw [width, htype, sizeOfField_integer htype]
    · rw [width, htype, sizeOfField_boolean htype]
    · rw [width, htype, (spec_len htype).1]
  · obtain ⟨hlen, hpos, hle⟩ := spec_len hstring
    omega

end Table

theorem seek_one {ι : Type} (quoted : Bool) (name value : List UInt8) (s : JsonAttr ι)
    (rest : List (JsonAttr ι)) (h : ∀ next ∈ rest.head?, next.attributeName ≠ name) :
    seek quoted name value (s :: rest) = s :: rest := by
  cases rest with
  | nil => rfl
  | cons next rest =>
    unfold seek
    split_ifs
    · rfl
    · rfl
    · rename_i hname
      exact absurd (not_not.mp hname) (h next rfl)

section Values
variable {o : InputArguments}

theorem atoi_decimal {v : Int} (h1 : -2147483648 ≤ v) (h2 : v < 2147483648) : atoi (decimal v) = v := by
  rw [atoi, strtol_decimal (by omega) (by omega), int32_of_range h1 h2]

theorem literal_number {f : Field} {v : Int} : (Setting.number f v).literal.value = decimal v := by
  obtain ⟨c, cs, hcons⟩ := List.exists_cons_of_ne_nil (decimal_ne_nil v)
  rw [Setting.literal, Literal.value, hcons]
  rfl

theorem decimal_plain {c : UInt8} (h : c = 45 ∨ ∃ d < 10, c = UInt8.ofNat (48 + d)) :
    c ≠ 0 ∧ isspace c = false ∧ c ≠ ch ':' ∧ c ≠ ch '[' ∧ c ≠ ch '{' ∧ c ≠ ch '"' ∧ c ≠ ch ',' ∧
      c ≠ ch '}' := by
  obtain rfl | ⟨d, hd, rfl⟩ := h
  · decide
  · interval_cases d <;> decide

theorem literal_valid {st : Setting} (h : st.Accepted) : st.literal.Valid := by
  cases st with
  | number f v =>
    have hplain := fun c (hc : c ∈ decimal v) => decimal_plain (mem_decimal hc)
    obtain ⟨c, cs, hcons⟩ := List.exists_cons_of_ne_nil (decimal_ne_nil v)
    rw [hcons] at hplain
    rw [Setting.literal, hcons]
    obtain ⟨h1, h2, h3, h4, h5, h6, -⟩ := hplain c (by simp)
    refine ⟨⟨h1, h2, h3, h4, h5, h6⟩, fun d hd => ?_⟩
    obtain ⟨h1, h2, -, -, -, -, h7, h8⟩ := hplain d (List.mem_cons_of_mem c hd)
    exact ⟨h1, h2, h7, h8⟩
  | flag f b =>
    cases b <;> exact ⟨by decide, forall_of_all (by decide)⟩
  | text f letters => exact h.2.1

theorem literal_fits {st : Setting} (h : st.Accepted) (maxlen : Int) :
    st.literal.overlong (maxlenOf (spec st.field) maxlen) = none := by
  cases st with
  | number f v =>
    have hlength : (decimal v).length ≤ 11 := by
      obtain ⟨-, h1, h2⟩ := h
      exact decimal_length (k := 9) (by omega)
    rw [Setting.literal, Literal.overlong, if_neg]
    rw [List.length_tail]
    have hmax : valMax = 512 := rfl
    omega
  | flag f b => cases b <;> rfl
  | text f letters =>
    obtain ⟨hstring, -, hlength⟩ := h
    obtain ⟨hlen, -, hle⟩ := spec_len hstring
    have hmax : valMax = 512 := rfl
    have hmaxlen : maxlenOf (spec f) maxlen + 1 = sizeOfField f := by
      rw [maxlenOf, if_pos hstring, hlen, int32_natCast (by omega)]
      omega
    change (Literal.quoted letters).overlong (maxlenOf (spec f) maxlen) = none
    rw [Literal.overlong, if_neg]
    omega

theorem accept_setting {st : Setting} (h : st.Accepted) (hsize : Sized o) :
    accept st.literal.isQuoted o (spec st.field) st.literal.value =
      .ok (.ok (written o st.field st.image)) := by
  have henum : ∀ f value, enumerated (spec f) value = .ok value := by
    intro f value
    rw [enumerated, spec_map]
  cases st with
  | number f v =>
    obtain ⟨htype, h1, h2⟩ := h
    have hroom : (intBytes 4 v).length ≤ (o f).length := by
      rw [intBytes_length, hsize f, sizeOfField_integer htype]
    have hwants : wantsQuotes (spec f) = false := by simp [wantsQuotes, htype, spec_map]
    rw [literal_number]
    change accept false o (spec f) (decimal v) = .ok (.ok (written o f (intBytes 4 v)))
    simp only [accept, Bool.false_and, Bool.not_false, Bool.true_and, hwants, Bool.false_eq_true,
      if_false, henum, storeValue, htype, numberBytes, atoi_decimal h1 h2, spec_addr, memcpy_ok hroom]
    rfl
  | flag f b =>
    have htype : (spec f).type = .boolean := h
    have hroom : (boolByte b).length ≤ (o f).length := by
      rw [hsize f, sizeOfField_boolean htype, boolByte, List.length_singleton]
    have hwants : wantsQuotes (spec f) = false := by simp [wantsQuotes, htype, spec_map]
    have hquoted : (Setting.flag f b).literal.isQuoted = false := by cases b <;> rfl
    have hvalue : ((Setting.flag f b).literal.value == ascii "true" ||
        strtol 0 (Setting.flag f b).literal.value != 0) = b := by cases b <;> rfl
    change accept _ o (spec f) _ = .ok (.ok (written o f (boolByte b)))
    rw [hquoted]
    simp only [accept, Bool.false_and, Bool.not_false, Bool.true_and, hwants, Bool.false_eq_true,
      if_false, henum, storeValue, htype, hvalue, spec_addr, memcpy_ok hroom]
    rfl
  | text f letters =>
    obtain ⟨htype, -, -⟩ := h
    obtain ⟨hlen, hpos, hle⟩ := spec_len htype
    have hallows : allowsQuotes (spec f) = true := by simp [allowsQuotes, htype]
    have hstore := storeString_ok (o := o) (i := f) (cstring (letters.map Letter.byte))
      (by omega : 0 < sizeOfField f) (by omega) (Nat.le_of_eq (hsize f).symm)
    change accept true o (spec f) (cstring (letters.map Letter.byte)) = _
    simp only [accept, hallows, Bool.not_true, Bool.and_false, Bool.false_eq_true, if_false,
      Bool.false_and, henum, storeValue, htype, spec_addr, hlen, hstore]
    rfl

theorem readMember_setting {s : Seen Field} {x : Setting × Layout} (h : x.1.Accepted)
    (hsize : Sized s.objects) : ∃ maxlen, readMember jsonAttributes s (member x) =
      .ok (.ok ⟨written s.objects x.1.field x.1.image, maxlen⟩) := by
  obtain ⟨rest, hfind, hnext⟩ := findAttr_spec x.1.field
  refine ⟨maxlenOf (spec x.1.field) s.maxlen, ?_⟩
  exact readMember_stores (name_short _) hfind (literal_fits h _) (seek_one _ _ _ _ _ hnext)
    (accept_setting h hsize)

theorem written_sized {st : Setting} (h : st.Accepted) (hsize : Sized o) :
    Sized (written o st.field st.image) := by
  intro f
  by_cases hf : f = st.field
  · subst hf
    have hlength : st.image.length ≤ sizeOfField st.field := by
      cases st with
      | number f v => rw [Setting.image, intBytes_length, Setting.field, sizeOfField_integer h.1]
      | flag f b => rw [Setting.image, boolByte, Setting.field, sizeOfField_boolean h, List.length_singleton]
      | text f letters =>
        rw [Setting.image, filled_length]
        exact Nat.sub_le _ _
    rw [written_self, List.length_append, List.length_drop, hsize]
    omega
  · rw [written_other hf, hsize]

def stored (o : InputArguments) (settings : List Setting) : InputArguments :=
  settings.foldl (fun o st => written o st.field st.image) o

theorem readMembers_settings {xs : List (Setting × Layout)} {s : Seen Field}
    (h : ∀ x ∈ xs, x.1.Accepted) (hsize : Sized s.objects) :
    readMembers jsonAttributes s (xs.map member) = .ok (0, stored s.objects (xs.map Prod.fst), []) := by
  induction xs generalizing s with
  | nil => rfl
  | cons x xs ih =>
    have hx := h x (by simp)
    obtain ⟨maxlen, hread⟩ := readMember_setting (s := s) hx hsize
    rw [List.map_cons, readMembers, hread]
    exact ih (fun y hy => h y (by simp [hy])) (written_sized hx hsize)

end Values

/-! The reset before the parse, and the defaults at its start. -/

section Reset
variable {o : InputArguments}

def zeros (f : Field) : List UInt8 := if (spec f).type = .integer then intBytes 4 0 else [0]

def cleared (o : InputArguments) : InputArguments := fun f => zeros f ++ (o f).drop (zeros f).length

theorem zeros_length_le (f : Field) : (zeros f).length ≤ sizeOfField f := by
  cases f <;> decide

theorem cleared_sized (h : Sized o) : Sized (cleared o) := by
  intro f
  have hlength := zeros_length_le f
  rw [cleared, List.length_append, List.length_drop, h f]
  omega

theorem cleared_cleared (o : InputArguments) : cleared (cleared o) = cleared o := by
  funext f
  simp [cleared]

theorem clear_fields (fields : List Field) (h : Sized o) : ∃ o',
    fields.foldlM (fun o f => memcpy o f (zeros f)) o = .ok o' ∧
      ∀ f, o' f = if f ∈ fields then cleared o f else o f := by
  induction fields generalizing o with
  | nil => exact ⟨o, rfl, fun f => by simp⟩
  | cons g fields ih =>
    have hroom : (zeros g).length ≤ (o g).length := by
      rw [h g]
      exact zeros_length_le g
    have hsized : Sized (written o g (zeros g)) := by
      intro f
      by_cases hf : f = g
      · subst hf
        rw [written_self]
        exact cleared_sized h f
      · rw [written_other hf, h f]
    obtain ⟨o', hrun, hvalues⟩ := ih hsized
    refine ⟨o', ?_, fun f => ?_⟩
    · rw [List.foldlM_cons, memcpy_ok hroom]
      exact hrun
    · rw [hvalues f]
      by_cases hf : f = g
      · subst hf
        by_cases hmem : f ∈ fields <;> simp [hmem, cleared]
      · have hother : written o g (zeros g) f = o f := written_other hf
        simp [cleared, hother, hf]

theorem clear_all (fields : List Field) (h : Sized o) (hall : ∀ f, f ∈ fields) :
    fields.foldlM (fun o f => memcpy o f (zeros f)) o = .ok (cleared o) := by
  obtain ⟨o', hrun, hvalues⟩ := clear_fields fields h
  rw [hrun]
  congr 1
  funext f
  rw [hvalues f, if_pos (hall f)]

theorem reset_cleared (h : Sized o) : reset o = .ok (cleared o) := by
  have hfield : resetField = fun o f => memcpy o f (zeros f) := by
    funext o f
    cases f <;> rfl
  rw [reset, hfield]
  exact clear_all _ h fun f => by cases f <;> decide

theorem stuffDefaults_cleared (h : Sized o) : stuffDefaults jsonAttributes o = .ok (cleared o) := by
  have hfield : (fun o f => stuffDefault o (spec f)) = fun o f => memcpy o f (zeros f) := by
    funext o f
    cases f <;> rfl
  rw [stuffDefaults, jsonAttributes_eq, List.foldlM_map, hfield]
  exact clear_all _ h fun f => by cases f <;> decide

end Reset

/-! What the members say in the end. -/

section Meaning
variable {o : InputArguments}

def intMember (o : InputArguments) (f : Field) : Int := (BitVec.ofNat 32 (ofLe (o f))).toInt

namespace Setting

def Shows (o : InputArguments) : Setting → Prop
  | .number f v => intMember o f = v
  | .flag f b => o f = boolByte b
  | .text f letters => cstring (o f) = cstring (letters.map Letter.byte)

/-- The string leaves room for its terminator before the last byte, which no store reaches. -/
def Ends : Setting → Prop
  | .text f letters => (cstring (letters.map Letter.byte)).length < sizeOfField f - 1
  | _ => True

instance : (st : Setting) → Decidable st.Ends
  | .text f letters => inferInstanceAs (Decidable ((cstring (letters.map Letter.byte)).length <
      sizeOfField f - 1))
  | .number _ _ => inferInstanceAs (Decidable True)
  | .flag _ _ => inferInstanceAs (Decidable True)

end Setting

def Terminated (o : InputArguments) : Prop := ∀ f, (spec f).type = .string → 0 ∈ o f

instance (o : InputArguments) : Decidable (Terminated o) :=
  decidable_of_iff (∀ f ∈ [Field.sharedMemoryName, .networkInterfaceName, .iPv4MulticastAddress,
    .loggingFileName], 0 ∈ o f)
    ⟨fun h f hf => h f (by cases f <;> first | decide | exact absurd hf (by decide)),
      fun h f hf => h f (by revert f; decide)⟩

def initial (f : Field) : Setting :=
  match (spec f).type with
  | .integer => .number f 0
  | .boolean => .flag f false
  | _ => .text f []

/-- The last setting of a member counts, and the hexadecimal dump switches the other off. -/
def meant (settings : List Setting) : Field → Setting :=
  let last := settings.foldl (fun last st => Function.update last st.field st) initial
  match last .configDumpReceivedPacketsInHexadecimalFormat with
  | .flag _ true => Function.update last .configDumpReceivedPacketsInAsciiFormat
      (.flag .configDumpReceivedPacketsInAsciiFormat false)
  | _ => last

theorem intBytes_toInt {v : Int} (h1 : -2147483648 ≤ v) (h2 : v < 2147483648) :
    (BitVec.ofNat 32 (ofLe (intBytes 4 v))).toInt = v := by
  have hvalue : ofLe (intBytes 4 v) = (v % 4294967296).toNat := by
    rw [intBytes, ofLe_leBytes]
    norm_num
    omega
  rw [hvalue, BitVec.toInt_eq_toNat_bmod, BitVec.toNat_ofNat]
  simp only [Int.bmod_def]
  omega

theorem shows_congr {st : Setting} {o' : InputArguments} (h : o' st.field = o st.field) :
    st.Shows o' ↔ st.Shows o := by
  cases st with
  | number f v =>
    change o' f = o f at h
    simp only [Setting.Shows, intMember, h]
  | flag f b =>
    change o' f = o f at h
    simp only [Setting.Shows, h]
  | text f letters =>
    change o' f = o f at h
    simp only [Setting.Shows, h]

theorem written_shows {st : Setting} (h : st.Accepted) (hends : st.Ends) (hsize : Sized o) :
    st.Shows (written o st.field st.image) := by
  cases st with
  | number f v =>
    obtain ⟨htype, h1, h2⟩ := h
    have hdrop : (o f).drop 4 = [] := List.drop_eq_nil_of_le (by rw [hsize f, sizeOfField_integer htype])
    simp only [Setting.Shows, Setting.field, Setting.image, intMember, written_self, intBytes_length,
      hdrop, List.append_nil]
    exact intBytes_toInt h1 h2
  | flag f b =>
    have hdrop : (o f).drop 1 = [] :=
      List.drop_eq_nil_of_le (by rw [hsize f, sizeOfField_boolean h])
    simp only [Setting.Shows, Setting.field, Setting.image, written_self, boolByte,
      List.length_singleton, hdrop, List.append_nil]
  | text f letters =>
    obtain ⟨k, hk⟩ : ∃ k, sizeOfField f - 1 - (cstring (letters.map Letter.byte)).length = k + 1 :=
      Nat.exists_eq_add_one_of_ne_zero (Nat.sub_ne_zero_of_lt hends)
    simp only [Setting.Shows, Setting.field, Setting.image, written_self]
    rw [filled, List.take_of_length_le (Nat.le_of_lt hends), hk, List.replicate_succ,
      List.append_assoc, List.cons_append, cstring_closed zero_not_mem_cstring]

/-- For each member, a setting of it that the parser takes and that its bytes show. -/
structure Tells (last : Field → Setting) (o : InputArguments) : Prop where
  field : ∀ f, (last f).field = f
  accepted : ∀ f, (last f).Accepted
  ends : ∀ f, (last f).Ends
  shows' : ∀ f, (last f).Shows o

theorem Tells.initial (hsize : Sized o) : Tells initial (cleared o) := by
  refine ⟨fun f => by cases f <;> rfl, fun f => ?_, fun f => ?_, fun f => ?_⟩
  · cases f <;> simp [InputArguments.initial, spec, entry, Setting.Accepted]
  · cases f <;> decide
  · have hdrop : ∀ n, sizeOfField f ≤ n → (o f).drop n = [] := fun n hn =>
      List.drop_eq_nil_of_le (by rw [hsize f]; exact hn)
    obtain htype | htype | htype := spec_type f
    · have hzeros : zeros f = intBytes 4 0 := by rw [zeros, if_pos htype]
      rw [InputArguments.initial, htype]
      simp only [Setting.Shows, intMember, cleared, hzeros, intBytes_length,
        hdrop 4 (Nat.le_of_eq (sizeOfField_integer htype)), List.append_nil]
      exact intBytes_toInt (by omega) (by omega)
    · have hzeros : zeros f = [0] := by rw [zeros, htype, if_neg (by decide)]
      rw [InputArguments.initial, htype]
      simp only [Setting.Shows, cleared, hzeros, List.length_singleton,
        hdrop 1 (Nat.le_of_eq (sizeOfField_boolean htype)), List.append_nil]
      rfl
    · have hzeros : zeros f = [0] := by rw [zeros, htype, if_neg (by decide)]
      rw [InputArguments.initial, htype]
      simp only [Setting.Shows, cleared, hzeros]
      rfl

theorem Tells.assign {last : Field → Setting} {st : Setting} (h : Tells last o) (hst : st.Accepted)
    (hends : st.Ends) (hshows : st.Shows (written o st.field st.image)) :
    Tells (Function.update last st.field st) (written o st.field st.image) := by
  have hcases : ∀ f, (f = st.field ∧ Function.update last st.field st f = st) ∨
      (f ≠ st.field ∧ Function.update last st.field st f = last f) := by
    intro f
    by_cases hf : f = st.field
    · exact .inl ⟨hf, by rw [hf, Function.update_self]⟩
    · exact .inr ⟨hf, Function.update_of_ne hf _ _⟩
  refine ⟨fun f => ?_, fun f => ?_, fun f => ?_, fun f => ?_⟩
  · obtain ⟨hf, hval⟩ | ⟨-, hval⟩ := hcases f
    · rw [hval, hf]
    · rw [hval, h.field]
  · obtain ⟨-, hval⟩ | ⟨-, hval⟩ := hcases f
    · rw [hval]; exact hst
    · rw [hval]; exact h.accepted f
  · obtain ⟨-, hval⟩ | ⟨-, hval⟩ := hcases f
    · rw [hval]; exact hends
    · rw [hval]; exact h.ends f
  · obtain ⟨-, hval⟩ | ⟨hf, hval⟩ := hcases f
    · rw [hval]; exact hshows
    · rw [hval, shows_congr (written_other (by rw [h.field]; exact hf))]
      exact h.shows' f

theorem stored_tells {settings : List Setting} {last : Field → Setting} (h : Tells last o)
    (hsize : Sized o) (hall : ∀ st ∈ settings, st.Accepted ∧ st.Ends) :
    Sized (stored o settings) ∧ Tells (settings.foldl
      (fun last st => Function.update last st.field st) last) (stored o settings) := by
  induction settings generalizing o last with
  | nil => exact ⟨hsize, h⟩
  | cons st settings ih =>
    obtain ⟨haccepted, hends⟩ := hall st (by simp)
    exact ih (h.assign haccepted hends (written_shows haccepted hends hsize)) (written_sized haccepted hsize)
      fun s hs => hall s (by simp [hs])

theorem excludeAscii_tells {last : Field → Setting} (h : Tells last o) (hsize : Sized o) :
    ∃ o', excludeAscii o = .ok o' ∧ Sized o' ∧
      Tells (match last .configDumpReceivedPacketsInHexadecimalFormat with
        | .flag _ true => Function.update last .configDumpReceivedPacketsInAsciiFormat
            (.flag .configDumpReceivedPacketsInAsciiFormat false)
        | _ => last) o' := by
  have hfield := h.field .configDumpReceivedPacketsInHexadecimalFormat
  have haccepted := h.accepted .configDumpReceivedPacketsInHexadecimalFormat
  have hshows := h.shows' .configDumpReceivedPacketsInHexadecimalFormat
  cases hlast : last .configDumpReceivedPacketsInHexadecimalFormat with
  | number f v =>
    rw [hlast] at hfield haccepted
    obtain rfl : f = _ := hfield
    exact absurd haccepted.1 (by decide)
  | text f letters =>
    rw [hlast] at hfield haccepted
    obtain rfl : f = _ := hfield
    exact absurd haccepted.1 (by decide)
  | flag f b =>
    rw [hlast] at hfield hshows
    obtain rfl : f = _ := hfield
    have hbyte : o .configDumpReceivedPacketsInHexadecimalFormat = boolByte b := hshows
    cases b with
    | false =>
      exact ⟨o, if_pos hbyte, hsize, h⟩
    | true =>
      have hoff : o .configDumpReceivedPacketsInHexadecimalFormat ≠ [0] := by
        rw [hbyte]
        decide
      let off : Setting := .flag .configDumpReceivedPacketsInAsciiFormat false
      have hoff' : off.Accepted := rfl
      refine ⟨written o off.field off.image, ?_, written_sized hoff' hsize,
        h.assign hoff' trivial (written_shows hoff' trivial hsize)⟩
      rw [excludeAscii, if_neg hoff]
      exact memcpy_ok (by rw [hsize]; decide)

theorem Tells.terminated {last : Field → Setting} (h : Tells last o) (hsize : Sized o) :
    Terminated o := by
  intro f hf
  have hfield := h.field f
  have haccepted := h.accepted f
  have hends := h.ends f
  have hshows := h.shows' f
  cases hlast : last f with
  | number g v =>
    rw [hlast] at hfield haccepted
    obtain rfl : g = f := hfield
    exact absurd (hf.symm.trans haccepted.1) (by decide)
  | flag g b =>
    rw [hlast] at hfield haccepted
    obtain rfl : g = f := hfield
    exact absurd (hf.symm.trans haccepted) (by decide)
  | text g letters =>
    rw [hlast] at hfield hends hshows
    obtain rfl : g = f := hfield
    by_contra hnone
    have hwhole : o g = cstring (letters.map Letter.byte) := (cstring_eq_self hnone).symm.trans hshows
    have hlength := hsize g
    rw [hwhole] at hlength
    have hshort : (cstring (letters.map Letter.byte)).length < sizeOfField g - 1 := hends
    omega

end Meaning

/-! What is printed. -/

section Prints
variable {o o' : InputArguments} {argc : Nat} {file : Option (List UInt8 × Nat)} {status : Int}

theorem printParameters_ok (h : Terminated o) : printParameters o = .ok () := by
  have hstring : ∀ f, (spec f).type = .string → printString o f = .ok () := fun f hf => if_pos (h f hf)
  rw [printParameters, hstring _ rfl, hstring _ rfl, hstring _ rfl, hstring _ rfl]
  split_ifs <;> rfl

theorem printParameters_halts (h : ¬Terminated o) : printParameters o = .error .outOfBounds := by
  unfold printParameters printString
  by_cases h1 : 0 ∈ o .sharedMemoryName
  · by_cases h2 : 0 ∈ o .networkInterfaceName
    · by_cases h3 : 0 ∈ o .iPv4MulticastAddress
      · have h4 : 0 ∉ o .loggingFileName := by
          intro h4
          refine h fun f hf => ?_
          cases f <;> first | assumption | exact absurd hf (by decide)
        have hhead : (o .loggingFileName).head? ≠ some 0 := fun hhead => h4 (List.mem_of_head? hhead)
        simp only [h1, h2, h3, h4, hhead, if_true, if_false]
        rfl
      · simp only [h1, h2, h3, if_true, if_false]
        rfl
    · simp only [h1, h2, if_true, if_false]
      rfl
  · simp only [h1, if_false]
    rfl

theorem readParameters_ok (hparse : parseParameters argc file o = .ok (status, o'))
    (h : argc < 2 ∨ Terminated o') : readParameters argc file o = .ok (status, o') := by
  rw [readParameters, hparse]
  change (if argc < 2 then _ else printParameters o' >>= _) = _
  obtain hfew | hterminated := h
  · rw [if_pos hfew]
    rfl
  · rw [printParameters_ok hterminated]
    split_ifs <;> rfl

theorem readParameters_halts (hparse : parseParameters argc file o = .ok (status, o'))
    (hargc : 2 ≤ argc) (h : ¬Terminated o') : readParameters argc file o = .error .outOfBounds := by
  rw [readParameters, hparse]
  change (if argc < 2 then _ else printParameters o' >>= _) = _
  rw [if_neg (by omega), printParameters_halts h]
  rfl

end Prints

section Files
variable {o : InputArguments}

theorem member_valid {x : Setting × Layout} (h : x.1.Accepted) (hlayout : x.2.Valid) :
    (member x).Valid :=
  ⟨fun c hc => .inl (hlayout.before c hc), name_plain _, hlayout.colon, literal_valid h, hlayout.after⟩

def fileOf (space : List UInt8) (xs : List (Setting × Layout)) (tail : List UInt8) : List UInt8 :=
  space ++ ch '{' :: render (xs.map member) tail

theorem readJsonStringFromFile_whole {bytes : List UInt8} (h : bytes.length < bufferSize) :
    readJsonStringFromFile (some (bytes, bytes.length)) =
      bytes ++ List.replicate (bufferSize - bytes.length) 0 := if_pos ⟨h, rfl⟩

theorem parseParameters_file {argc : Nat} {space tail : List UInt8} {xs : List (Setting × Layout)}
    (hargc : 2 ≤ argc) (hsize : Sized o) (hspace : ∀ c ∈ space, isspace c = true) (hxs : xs ≠ [])
    (haccepted : ∀ x ∈ xs, x.1.Accepted ∧ x.2.Valid) (hfile : (fileOf space xs tail).length < bufferSize) :
    parseParameters argc (some (fileOf space xs tail, (fileOf space xs tail).length)) o =
      (excludeAscii (stored (cleared o) (xs.map Prod.fst))).map fun o' => ((0 : Int), o') := by
  have hnul : 0 ∈ tail ++ List.replicate (bufferSize - (fileOf space xs tail).length) 0 := by
    simp
    omega
  have htext : readJsonStringFromFile (some (fileOf space xs tail, (fileOf space xs tail).length)) =
      space ++ ch '{' :: render (xs.map member)
        (tail ++ List.replicate (bufferSize - (fileOf space xs tail).length) 0) := by
    rw [readJsonStringFromFile_whole hfile, ← render_append]
    simp [fileOf]
  have hcleared := cleared_sized hsize
  obtain ⟨o₁, status, objects, left, hdefaults, hread, hparse⟩ := opening_members hcleared.room
    hspace (by simpa using hxs : xs.map member ≠ []) (fun m hm => by
      obtain ⟨x, hx, rfl⟩ := List.mem_map.mp hm
      exact member_valid (haccepted x hx).1 (haccepted x hx).2) hnul
  rw [← jsonReadObject_eq hdefaults] at hparse
  obtain rfl : cleared o = o₁ := by
    rw [stuffDefaults_cleared hcleared, cleared_cleared] at hdefaults
    exact Except.ok.inj hdefaults
  have hstored := readMembers_settings (s := ⟨cleared o, 0⟩) (fun x hx => (haccepted x hx).1) hcleared
  obtain ⟨rfl, rfl, rfl⟩ : (0 : Nat) = status ∧ stored (cleared o) (xs.map Prod.fst) = objects ∧ [] = left := by
    simpa using Except.ok.inj (hstored.symm.trans hread)
  rw [parseParameters, reset_cleared hsize]
  change (if argc < 2 then _ else jsonReadObject (readJsonStringFromFile _) jsonAttributes (cleared o) >>= _) = _
  rw [if_neg (by omega), htext, hparse]
  change (excludeAscii (stored (cleared o) (xs.map Prod.fst)) >>= _) = _
  cases excludeAscii (stored (cleared o) (xs.map Prod.fst)) <;> rfl

/-- A file of settings is read as its settings mean. -/
theorem readParameters_settings (o : InputArguments) (argc : Nat) (space tail : List UInt8)
    (xs : List (Setting × Layout)) (hargc : 2 ≤ argc) (hsize : Sized o)
    (hspace : ∀ c ∈ space, isspace c = true) (hxs : xs ≠ [])
    (hvalid : ∀ x ∈ xs, x.1.Accepted ∧ x.1.Ends ∧ x.2.Valid)
    (hfile : (fileOf space xs tail).length < bufferSize) : ∃ o',
      readParameters argc (some (fileOf space xs tail, (fileOf space xs tail).length)) o = .ok (0, o') ∧
      Sized o' ∧ ∀ f, (meant (xs.map Prod.fst) f).field = f ∧ (meant (xs.map Prod.fst) f).Shows o' := by
  have hparse := parseParameters_file hargc hsize hspace hxs
    (fun x hx => ⟨(hvalid x hx).1, (hvalid x hx).2.2⟩) hfile
  obtain ⟨hstored, htells⟩ := stored_tells (Tells.initial hsize) (cleared_sized hsize)
    (fun st (hst : st ∈ xs.map Prod.fst) => by
      obtain ⟨x, hx, rfl⟩ := List.mem_map.mp hst
      exact ⟨(hvalid x hx).1, (hvalid x hx).2.1⟩)
  obtain ⟨o', hend, hsized, htold⟩ := excludeAscii_tells htells hstored
  rw [hend] at hparse
  exact ⟨o', readParameters_ok hparse (.inr (htold.terminated hsized)), hsized,
    fun f => ⟨htold.field f, htold.shows' f⟩⟩

def unread : InputArguments := fun f => List.replicate (sizeOfField f) 85

theorem unread_sized : Sized unread := fun _ => List.length_replicate

theorem readParameters_settings_twice : ∃ o',
    readParameters 2 (some (fileOf [32] [(.number .processorCoreId 3, ⟨[], [58], []⟩),
      (.text .networkInterfaceName [.plain 109, .coded [48, 48, 55, 52]], ⟨[10], [58, 32], []⟩),
      (.number .processorCoreId (-12), ⟨[10, 32], [58, 32], [32]⟩)] [10], (fileOf [32]
      [(.number .processorCoreId 3, ⟨[], [58], []⟩),
      (.text .networkInterfaceName [.plain 109, .coded [48, 48, 55, 52]], ⟨[10], [58, 32], []⟩),
      (.number .processorCoreId (-12), ⟨[10, 32], [58, 32], [32]⟩)] [10]).length)) unread = .ok (0, o') ∧
    intMember o' .processorCoreId = -12 ∧ cstring (o' .networkInterfaceName) = ascii "mt" ∧
    cstring (o' .loggingFileName) = [] := by
  obtain ⟨o', hrun, -, hshows⟩ := readParameters_settings unread 2 [32] [10]
    [(.number .processorCoreId 3, ⟨[], [58], []⟩),
      (.text .networkInterfaceName [.plain 109, .coded [48, 48, 55, 52]], ⟨[10], [58, 32], []⟩),
      (.number .processorCoreId (-12), ⟨[10, 32], [58, 32], [32]⟩)] (by omega) unread_sized
    (forall_of_all (by decide))
    (by simp) (by
      intro x hx
      simp only [List.mem_cons, List.not_mem_nil, or_false] at hx
      obtain rfl | rfl | rfl := hx
      · exact ⟨⟨rfl, by omega, by omega⟩, trivial, forall_of_all (by decide), forall_of_all (by decide),
          forall_of_all (by decide)⟩
      · have hends : (cstring ([Letter.plain 109, .coded [48, 48, 55, 52]].map Letter.byte)).length <
            ifnamsiz - 1 := by decide
        refine ⟨⟨rfl, ?_, by decide⟩, hends, forall_of_all (by decide), forall_of_all (by decide),
          forall_of_all (by decide)⟩
        intro l hl
        obtain rfl | rfl := List.mem_pair.mp hl
        · exact (by decide : (109 : UInt8) ≠ 0 ∧ (109 : UInt8) ≠ ch '"' ∧ (109 : UInt8) ≠ ch '\\')
        · exact ⟨rfl, forall_of_all (by decide)⟩
      · exact ⟨⟨rfl, by omega, by omega⟩, trivial, forall_of_all (by decide), forall_of_all (by decide),
          forall_of_all (by decide)⟩)
    (by decide +kernel)
  exact ⟨o', hrun, (hshows .processorCoreId).2, (hshows .networkInterfaceName).2,
    (hshows .loggingFileName).2⟩

end Files

end InputArguments

end UdpSm
