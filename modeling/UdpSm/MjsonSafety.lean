import UdpSm.Mjson
import Mathlib.Data.List.Infix

/-! Every table whose objects have room and every buffer that holds a NUL: the parse ends, stays
inside its buffers, and leaves alone what the table does not reach. -/
namespace UdpSm.Mjson
open Lib
variable {ι : Type} {attrs : List (JsonAttr ι)} {o o' : Objects ι} {spec : JsonAttr ι}
  {bytes : List UInt8}

def width (spec : JsonAttr ι) : Nat :=
  match spec.type with
  | .integer => 4
  | .uinteger => 4
  | .short => 2
  | .ushort => 2
  | .string => spec.len
  | .boolean => 1
  | .character => 1
  | .check => 0
  | .ignore => 0

/-- The bytes of its object that are ever written. -/
def reach (spec : JsonAttr ι) : Nat :=
  if spec.type = .string then max 1 (spec.len - 1) else width spec

structure Room (o : Objects ι) (spec : JsonAttr ι) : Prop where
  size : width spec ≤ (o spec.addr).length
  len : spec.type = .string → 0 < spec.len ∧ spec.len < 2 ^ 64

def Kept (attrs : List (JsonAttr ι)) (o o' : Objects ι) : Prop :=
  ∀ i, (o' i).length = (o i).length ∧
    ∀ n, (∀ spec ∈ attrs, targetAddress spec = some i → reach spec ≤ n) → (o' i).drop n = (o i).drop n

theorem Kept.refl (attrs : List (JsonAttr ι)) (o : Objects ι) : Kept attrs o o :=
  fun _ => ⟨rfl, fun _ _ => rfl⟩

theorem Kept.trans {o'' : Objects ι} (h : Kept attrs o o') (h' : Kept attrs o' o'') :
    Kept attrs o o'' :=
  fun i => ⟨(h' i).1.trans (h i).1, fun n hn => ((h' i).2 n hn).trans ((h i).2 n hn)⟩

theorem Room.kept (h : Room o spec) (hkept : Kept attrs o o') : Room o' spec :=
  ⟨by rw [(hkept spec.addr).1]; exact h.size, h.len⟩

theorem Room.reach_le (h : Room o spec) : reach spec ≤ (o spec.addr).length := by
  have hsize := h.size
  unfold reach
  split_ifs with hstring
  · have hlen := (h.len hstring).1
    simp only [width, hstring] at hsize
    omega
  · exact hsize

section Objects
variable [DecidableEq ι]

def written (o : Objects ι) (i : ι) (bytes : List UInt8) : Objects ι :=
  Function.update o i (bytes ++ (o i).drop bytes.length)

@[simp] theorem written_self (o : Objects ι) (i : ι) :
    written o i bytes i = bytes ++ (o i).drop bytes.length := by
  simp [written]

theorem written_other {i j : ι} (h : j ≠ i) : written o i bytes j = o j := by
  simp [written, h]

theorem memcpy_ok {i : ι} (h : bytes.length ≤ (o i).length) :
    memcpy o i bytes = .ok (written o i bytes) := by
  rw [memcpy, if_pos h, written]

theorem Kept.written (hmem : spec ∈ attrs) (htarget : targetAddress spec = some spec.addr)
    (hreach : bytes.length ≤ reach spec) (hroom : bytes.length ≤ (o spec.addr).length) :
    Kept attrs o (written o spec.addr bytes) := by
  intro i
  by_cases hi : i = spec.addr
  · subst hi
    refine ⟨by simp; omega, fun n hn => ?_⟩
    have hn : reach spec ≤ n := hn spec hmem htarget
    rw [written_self, List.drop_append, List.drop_eq_nil_of_le (by omega), List.drop_drop,
      List.nil_append, Nat.add_sub_cancel' (by omega)]
  · rw [written_other hi]
    exact ⟨rfl, fun _ _ => rfl⟩

theorem memcpy_kept (hmem : spec ∈ attrs) (hroom : Room o spec)
    (htarget : targetAddress spec = some spec.addr) (h : bytes.length ≤ reach spec) :
    ∃ o', memcpy o spec.addr bytes = .ok o' ∧ Kept attrs o o' := by
  have hsize : bytes.length ≤ (o spec.addr).length := Nat.le_trans h hroom.reach_le
  exact ⟨_, memcpy_ok hsize, Kept.written hmem htarget h hsize⟩

theorem intBytes_length (k : Nat) (v : Int) : (intBytes k v).length = k := leBytes_length k _

def filled (n : Nat) (value : List UInt8) : List UInt8 :=
  value.take n ++ List.replicate (n - value.length) 0

theorem filled_length (n : Nat) (value : List UInt8) : (filled n value).length = n := by
  simp [filled]
  omega

theorem storeString_ok {i : ι} {len : Nat} (value : List UInt8) (hpos : 0 < len)
    (hlen : len < 2 ^ 64) (hroom : len ≤ (o i).length) :
    storeString o i len value = .ok (written o i (filled (len - 1) value)) := by
  have hcl : (len + 2 ^ 64 - 1) % 2 ^ 64 = len - 1 := by omega
  have hzeros : (List.replicate (len - 1) (0 : UInt8)).length ≤ (o i).length := by
    rw [List.length_replicate]
    omega
  have hvalue : (value.take (len - 1)).length ≤ (written o i (List.replicate (len - 1) 0) i).length := by
    simp only [List.length_take, written_self, List.length_append, List.length_replicate]
    omega
  have hfill : value.take (len - 1) ++ (List.replicate (len - 1) 0 ++ (o i).drop (len - 1)).drop
      (value.take (len - 1)).length = filled (len - 1) value ++ (o i).drop (len - 1) := by
    have hzeros' : len - 1 - min (len - 1) value.length = len - 1 - value.length := by omega
    rw [List.drop_append_of_le_length (by simp), List.drop_replicate, filled, List.append_assoc,
      List.length_take, hzeros']
  simp only [storeString, hcl, memcpy_ok hzeros]
  change memcpy (written o i (List.replicate (len - 1) 0)) i (value.take (len - 1)) = _
  rw [memcpy_ok hvalue, written, written_self, List.length_replicate, hfill, written, written,
    Function.update_idem, filled_length]

theorem storeString_kept (value : List UInt8) (hmem : spec ∈ attrs) (hroom : Room o spec)
    (hstring : spec.type = .string) :
    ∃ o', storeString o spec.addr spec.len value = .ok o' ∧ Kept attrs o o' := by
  obtain ⟨hpos, hlen⟩ := hroom.len hstring
  have hsize : spec.len ≤ (o spec.addr).length := by simpa [width, hstring] using hroom.size
  refine ⟨_, storeString_ok value hpos hlen hsize, Kept.written hmem ?_ ?_ ?_⟩
  · simp [targetAddress, hstring]
  · rw [filled_length, reach, if_pos hstring]
    omega
  · rw [filled_length]
    omega

theorem stuffDefault_kept (hmem : spec ∈ attrs) (hroom : Room o spec) :
    ∃ o', stuffDefault o spec = .ok o' ∧ Kept attrs o o' := by
  unfold stuffDefault
  split_ifs
  · exact ⟨o, rfl, Kept.refl attrs o⟩
  · cases htarget : targetAddress spec with
    | none => exact ⟨o, rfl, Kept.refl attrs o⟩
    | some i =>
      have hi : i = spec.addr := by
        unfold targetAddress at htarget
        split at htarget <;> simp_all
      subst hi
      refine memcpy_kept hmem hroom htarget ?_
      cases htype : spec.type <;>
        simp [defaultBytes, reach, width, htype, intBytes_length, boolByte]

theorem stuffDefaults_kept {part : List (JsonAttr ι)} (hpart : ∀ spec ∈ part, spec ∈ attrs)
    (hroom : ∀ spec ∈ attrs, Room o spec) :
    ∃ o', stuffDefaults part o = .ok o' ∧ Kept attrs o o' := by
  induction part generalizing o with
  | nil => exact ⟨o, rfl, Kept.refl attrs o⟩
  | cons spec part ih =>
    have hmem := hpart spec (by simp)
    obtain ⟨o₁, hfirst, hkept⟩ := stuffDefault_kept hmem (hroom spec hmem)
    obtain ⟨o₂, hrest, hkept'⟩ := ih (fun s hs => hpart s (by simp [hs]))
      (fun s hs => (hroom s hs).kept hkept)
    refine ⟨o₂, ?_, hkept.trans hkept'⟩
    rw [stuffDefaults, List.foldlM_cons, hfirst]
    exact hrest

end Objects

/-! What holds in each state, and what a round of the loop makes of it. -/

structure Named (attrs : List (JsonAttr ι)) (p : Parse ι) : Prop where
  name : p.pattr.isSome
  cursor : p.cursor ≠ []
  inside : ∀ spec ∈ p.cursor, spec ∈ attrs

def Collected (p : Parse ι) : Prop := ∃ valbuf, p.pval = some valbuf ∧ valbuf.length ≤ valMax

def Ready (attrs : List (JsonAttr ι)) (p : Parse ι) : Prop :=
  match p.state with
  | .inAttr => ∃ attrbuf, p.pattr = some attrbuf ∧ attrbuf.length ≤ attrMax - 1
  | .awaitValue => Named attrs p
  | .inValString => Named attrs p ∧ Collected p
  | .inEscape => Named attrs p ∧ Collected p
  | .inValToken => Named attrs p ∧ Collected p
  | .postVal => Named attrs p ∧ p.pval.isSome
  | _ => True

/-- The read pointer and the end pointer stay in the text, with its NUL ahead. -/
structure Inside (attrs : List (JsonAttr ι)) (text : List UInt8) (p : Parse ι) (cp : List UInt8) :
    Prop where
  ready : Ready attrs p
  suffix : cp <:+ text
  nul : 0 ∈ cp
  endp : ∀ e ∈ p.endp, e <:+ text

/-- The end of a token is the only character that two rounds look at. -/
def rank (p : Parse ι) (cp : List UInt8) : Nat :=
  2 * cp.length + if p.state = .inValToken then 1 else 0

def failures : List Nat := [errObstart, errAttrstart, errBadattr, errAttrlen, errNoarray, errStrlong,
  errToklong, errBadtrail, errBadstring, errCheckfail, errBadenum, errQnonstring, errNonqstring]

def Sound (attrs : List (JsonAttr ι)) (text : List UInt8) (p : Parse ι) (cp : List UInt8) :
    Move ι → Prop
  | .next p' cp' => Inside attrs text p' cp' ∧ Kept attrs p.objects p'.objects ∧
      rank p' cp' < rank p cp
  | .give status p' => status ∈ failures ∧ Kept attrs p.objects p'.objects ∧
      ∀ e ∈ p'.endp, e <:+ text
  | .goodParse p' cp' => Kept attrs p.objects p'.objects ∧ cp' <:+ text ∧ 0 ∈ cp'

section Rounds
variable {text rest : List UInt8} {p p' : Parse ι} {c : UInt8}

theorem rank_lt (p p' : Parse ι) (c : UInt8) {cp rest : List UInt8} (h : cp.length ≤ rest.length) :
    rank p' cp < rank p (c :: rest) := by
  unfold rank
  rw [List.length_cons]
  split_ifs <;> omega

theorem Inside.nul_tail (h : Inside attrs text p (c :: rest)) (hc : c ≠ 0) : 0 ∈ rest := by
  simpa [hc.symm] using h.nul

theorem Inside.suffix_tail (h : Inside attrs text p (c :: rest)) : rest <:+ text :=
  (List.suffix_cons c rest).trans h.suffix

theorem Sound.advance (h : Inside attrs text p (c :: rest)) (hc : c ≠ 0) (hready : Ready attrs p')
    (hobjects : p'.objects = p.objects) (hendp : ∀ e ∈ p'.endp, e <:+ text) :
    Sound attrs text p (c :: rest) (.next p' rest) :=
  ⟨⟨hready, h.suffix_tail, h.nul_tail hc, hendp⟩, hobjects ▸ Kept.refl attrs _,
    rank_lt p p' c (Nat.le_refl _)⟩

theorem Sound.fail {status : Nat} {cp : List UInt8} (hstatus : status ∈ failures)
    (hobjects : p'.objects = p.objects) (hendp : ∀ e ∈ p'.endp, e <:+ text) :
    Sound attrs text p cp (.give status p') :=
  ⟨hstatus, hobjects ▸ Kept.refl attrs _, hendp⟩

theorem endp_here {cp : List UInt8} (h : cp <:+ text) : ∀ e ∈ some cp, e <:+ text := by
  rintro e ⟨rfl⟩
  exact h

theorem init_sound (h : Inside attrs text p (c :: rest)) (hc : c ≠ 0) :
    ∃ m, init p c (c :: rest) = .ok m ∧ Sound attrs text p (c :: rest) m := by
  unfold init
  split_ifs
  · exact ⟨_, rfl, Sound.advance h hc h.ready rfl h.endp⟩
  · exact ⟨_, rfl, Sound.advance h hc trivial rfl h.endp⟩
  · exact ⟨_, rfl, Sound.fail (by decide) rfl (endp_here h.suffix)⟩

theorem awaitAttr_sound (h : Inside attrs text p (c :: rest)) (hc : c ≠ 0) :
    ∃ m, awaitAttr p c (c :: rest) = .ok m ∧ Sound attrs text p (c :: rest) m := by
  unfold awaitAttr
  split_ifs
  · exact ⟨_, rfl, Sound.advance h hc h.ready rfl h.endp⟩
  · exact ⟨_, rfl, Sound.advance h hc ⟨[], rfl, by simp⟩ rfl (endp_here h.suffix)⟩
  · exact ⟨_, rfl, Sound.advance h hc h.ready rfl h.endp⟩
  · exact ⟨_, rfl, Sound.fail (by decide) rfl (endp_here h.suffix)⟩

theorem push_ok {size : Nat} {buffer : List UInt8} (h : buffer.length < size) :
    push size buffer c = .ok (buffer ++ [c]) := if_pos h

theorem inAttr_sound (h : Inside attrs text p (c :: rest)) (hc : c ≠ 0) (hstate : p.state = .inAttr) :
    ∃ m, inAttr attrs p c (c :: rest) = .ok m ∧ Sound attrs text p (c :: rest) m := by
  have hready := h.ready
  simp only [Ready, hstate] at hready
  obtain ⟨attrbuf, hattr, hlength⟩ := hready
  have hpush : ∀ b, pushAttr attrbuf b = .ok (attrbuf ++ [b]) := by
    intro b
    exact push_ok (by simp only [attrMax] at *; omega)
  simp only [inAttr, hattr, hpush]
  split_ifs with hquote hlong
  · refine ⟨named attrs p (attrbuf ++ [0]) rest, rfl, ?_⟩
    unfold named
    cases hfind : findAttr attrs (cstring (attrbuf ++ [0])) with
    | nil => exact Sound.fail (by decide) rfl h.endp
    | cons spec specs =>
      refine Sound.advance h hc ⟨rfl, by simp, ?_⟩ rfl h.endp
      intro s hs
      exact (List.dropWhile_suffix _).subset (hfind ▸ hs : s ∈ findAttr attrs _)
  · exact ⟨_, rfl, Sound.fail (by decide) rfl h.endp⟩
  · refine ⟨_, rfl, Sound.advance h hc ?_ rfl h.endp⟩
    simp only [Ready, hstate]
    exact ⟨_, rfl, by simp; omega⟩

theorem awaitValue_sound (h : Inside attrs text p (c :: rest)) (hc : c ≠ 0)
    (hstate : p.state = .awaitValue) :
    ∃ m, awaitValue p c (c :: rest) = .ok m ∧ Sound attrs text p (c :: rest) m := by
  have hnamed : Named attrs p := by simpa only [Ready, hstate] using h.ready
  unfold awaitValue
  split_ifs
  · exact ⟨_, rfl, Sound.advance h hc h.ready rfl h.endp⟩
  · exact ⟨_, rfl, Sound.fail (by decide) rfl (endp_here h.suffix)⟩
  · exact ⟨_, rfl, Sound.fail (by decide) rfl (endp_here h.suffix)⟩
  · exact ⟨_, rfl, Sound.advance h hc ⟨⟨hnamed.name, hnamed.cursor, hnamed.inside⟩, [], rfl, by simp⟩
      rfl h.endp⟩
  · rw [pushVal, push_ok (by simp)]
    exact ⟨_, rfl, Sound.advance h hc ⟨⟨hnamed.name, hnamed.cursor, hnamed.inside⟩, [c], rfl,
      by simp [valMax]⟩ rfl h.endp⟩

theorem pushVal_ok {valbuf : List UInt8} (h : valbuf.length ≤ valMax) :
    pushVal valbuf c = .ok (valbuf ++ [c]) := push_ok (by omega)

theorem not_tooLong {valbuf : List UInt8} {maxlen : Int} :
    ¬tooLong valbuf maxlen = true ↔ valbuf.length < valMax ∧ (valbuf.length : Int) ≤ maxlen := by
  have hmax : valMax = 512 := rfl
  simp only [tooLong, Bool.or_eq_true, decide_eq_true_eq, not_or]
  omega

theorem length_lt_of_not_tooLong {valbuf : List UInt8} {maxlen : Int}
    (h : ¬tooLong valbuf maxlen = true) : valbuf.length < valMax := (not_tooLong.mp h).1

theorem inValString_sound (h : Inside attrs text p (c :: rest)) (hc : c ≠ 0)
    (hstate : p.state = .inValString) :
    ∃ m, inValString p c (c :: rest) = .ok m ∧ Sound attrs text p (c :: rest) m := by
  have hready := h.ready
  simp only [Ready, hstate] at hready
  obtain ⟨⟨hname, hcursor, hinside⟩, valbuf, hval, hlength⟩ := hready
  simp only [inValString, hval, pushVal_ok hlength]
  split_ifs with hback hquote hlong
  · exact ⟨_, rfl, Sound.advance h hc ⟨⟨hname, hcursor, hinside⟩, valbuf, rfl, hlength⟩ rfl h.endp⟩
  · exact ⟨_, rfl, Sound.advance h hc ⟨⟨hname, hcursor, hinside⟩, rfl⟩ rfl h.endp⟩
  · exact ⟨_, rfl, Sound.fail (by decide) rfl h.endp⟩
  · have hshort := length_lt_of_not_tooLong hlong
    refine ⟨_, rfl, Sound.advance h hc ?_ rfl h.endp⟩
    simp only [Ready, hstate]
    exact ⟨⟨hname, hcursor, hinside⟩, _, rfl, by simp; omega⟩

theorem hexDigits_ok {cp : List UInt8} (n : Nat) (hnul : 0 ∈ cp) :
    ∃ digits rest, hexDigits n cp = .ok (digits, rest) ∧ rest <:+ cp ∧ 0 ∈ rest := by
  induction n generalizing cp with
  | zero => exact ⟨[], cp, rfl, List.suffix_refl cp, hnul⟩
  | succ n ih =>
    cases cp with
    | nil => cases hnul
    | cons c cs =>
      by_cases hdigit : isxdigit c
      · have hc : (0 : UInt8) ≠ c := by
          rintro rfl
          exact absurd hdigit (by decide)
        obtain ⟨digits, rest, hrun, hsuffix, hrest⟩ := ih ((List.mem_cons.mp hnul).resolve_left hc)
        refine ⟨c :: digits, rest, ?_, hsuffix.trans (List.suffix_cons c cs), hrest⟩
        change (if isxdigit c then _ else _) = _
        rw [if_pos hdigit]
        change (hexDigits n cs >>= _) = _
        rw [hrun]
        rfl
      · refine ⟨[], c :: cs, ?_, List.suffix_refl _, hnul⟩
        change (if isxdigit c then _ else _) = _
        rw [if_neg hdigit]
        rfl

theorem inEscape_sound (h : Inside attrs text p (c :: rest)) (hc : c ≠ 0)
    (hstate : p.state = .inEscape) :
    ∃ m, inEscape p c (c :: rest) = .ok m ∧ Sound attrs text p (c :: rest) m := by
  have hready := h.ready
  simp only [Ready, hstate] at hready
  obtain ⟨⟨hname, hcursor, hinside⟩, valbuf, hval, hlength⟩ := hready
  simp only [inEscape, hval, pushVal_ok hlength]
  split_ifs with hlong hu
  · exact ⟨_, rfl, Sound.fail (by decide) rfl h.endp⟩
  · have hshort := length_lt_of_not_tooLong hlong
    obtain ⟨digits, after, hrun, hsuffix, hnul⟩ := hexDigits_ok 4 (h.nul_tail hc)
    rw [List.tail_cons, hrun]
    change ∃ m, (if digits.length ≠ 4 then _ else _) = Except.ok m ∧ _
    split_ifs
    · exact ⟨_, rfl, Sound.fail (by decide) rfl h.endp⟩
    · exact ⟨_, rfl, ⟨⟨⟨hname, hcursor, hinside⟩, _, rfl, by simp; omega⟩,
        hsuffix.trans h.suffix_tail, hnul, h.endp⟩, Kept.refl attrs _,
        rank_lt _ _ c hsuffix.length_le⟩
  · have hshort := length_lt_of_not_tooLong hlong
    exact ⟨_, rfl, Sound.advance h hc ⟨⟨hname, hcursor, hinside⟩, _, rfl, by simp; omega⟩ rfl h.endp⟩

theorem inValToken_sound (h : Inside attrs text p (c :: rest)) (hc : c ≠ 0)
    (hstate : p.state = .inValToken) :
    ∃ m, inValToken p c (c :: rest) = .ok m ∧ Sound attrs text p (c :: rest) m := by
  have hready := h.ready
  simp only [Ready, hstate] at hready
  obtain ⟨⟨hname, hcursor, hinside⟩, valbuf, hval, hlength⟩ := hready
  simp only [inValToken, hval, pushVal_ok hlength]
  split_ifs with hend hagain hlong
  · refine ⟨_, rfl, ⟨⟨⟨hname, hcursor, hinside⟩, rfl⟩, h.suffix, h.nul, h.endp⟩,
      Kept.refl attrs _, ?_⟩
    simp [rank, hstate]
  · exact ⟨_, rfl, Sound.advance h hc ⟨⟨hname, hcursor, hinside⟩, rfl⟩ rfl h.endp⟩
  · exact ⟨_, rfl, Sound.fail (by decide) rfl h.endp⟩
  · refine ⟨_, rfl, Sound.advance h hc ?_ rfl h.endp⟩
    simp only [Ready, hstate]
    exact ⟨⟨hname, hcursor, hinside⟩, _, rfl, by simp only [valMax] at *; simp; omega⟩

theorem postElement_sound (h : Inside attrs text p (c :: rest)) :
    ∃ m, postElement p (c :: rest) = .ok m ∧ Sound attrs text p (c :: rest) m := by
  change ∃ m, (if isspace c then _ else _) = Except.ok m ∧ _
  split_ifs with hspace hcomma hbrace
  · have hc : c ≠ 0 := by rintro rfl; exact absurd hspace (by decide)
    exact ⟨_, rfl, Sound.advance h hc h.ready rfl h.endp⟩
  · have hc : c ≠ 0 := by rintro rfl; exact absurd hcomma (by decide)
    exact ⟨_, rfl, Sound.advance h hc trivial rfl h.endp⟩
  · have hc : c ≠ 0 := by rintro rfl; exact absurd hbrace (by decide)
    exact ⟨_, rfl, Kept.refl attrs _, h.suffix_tail, h.nul_tail hc⟩
  · exact ⟨_, rfl, Sound.fail (by decide) rfl (endp_here h.suffix)⟩

end Rounds

theorem skipSpace_ok {cp : List UInt8} (h : 0 ∈ cp) : ∃ c rest, cp.dropWhile isspace = c :: rest ∧
    skipSpace cp = .ok (c :: rest) ∧ c :: rest <:+ cp ∧ 0 ∈ c :: rest := by
  have hnul : 0 ∈ cp.dropWhile isspace := by
    rw [← List.takeWhile_append_dropWhile (p := isspace) (l := cp)] at h
    obtain htake | hdrop := List.mem_append.mp h
    · exact absurd (List.mem_takeWhile_imp htake) (by decide)
    · exact hdrop
  have hsuffix := List.dropWhile_suffix (l := cp) isspace
  cases hdrop : cp.dropWhile isspace with
  | nil => rw [hdrop] at hnul; cases hnul
  | cons c rest =>
    rw [hdrop] at hnul hsuffix
    refine ⟨c, rest, rfl, ?_, hsuffix, hnul⟩
    simp only [skipSpace, hdrop]
    rfl

theorem goodParse_ok (p : Parse ι) {cp : List UInt8} (h : 0 ∈ cp) :
    ∃ e, goodParse p cp = .ok ⟨0, p.objects, some e⟩ ∧ e <:+ cp := by
  obtain ⟨c, rest, -, hskip, hsuffix, -⟩ := skipSpace_ok h
  refine ⟨c :: rest, ?_, hsuffix⟩
  rw [goodParse, hskip]
  rfl

theorem seek_suffix (quoted : Bool) (name value : List UInt8) {cursor : List (JsonAttr ι)}
    (h : cursor ≠ []) : ∃ spec rest, seek quoted name value cursor = spec :: rest ∧
      spec :: rest <:+ cursor := by
  induction cursor with
  | nil => exact absurd rfl h
  | cons spec cursor ih =>
    cases cursor with
    | nil => exact ⟨spec, [], rfl, List.suffix_refl _⟩
    | cons next rest =>
      unfold seek
      split_ifs
      · exact ⟨_, _, rfl, List.suffix_refl _⟩
      · exact ⟨_, _, rfl, List.suffix_refl _⟩
      · obtain ⟨s, r, hseek, hsuffix⟩ := ih (by simp)
        exact ⟨s, r, hseek, hsuffix.trans (List.suffix_cons spec _)⟩

section Values
variable [DecidableEq ι]

/-- A value against one specification: it is stored within the reach, or a status says why not. -/
def Judged (attrs : List (JsonAttr ι)) (o : Objects ι) : Except Nat (Objects ι) → Prop
  | .error status => status ∈ failures
  | .ok o' => Kept attrs o o'

theorem storeValue_judged (hmem : spec ∈ attrs) (hroom : Room o spec) (value : List UInt8) :
    ∃ v, storeValue o spec value = .ok v ∧ Judged attrs o v := by
  have hstore : ∀ bytes : List UInt8, targetAddress spec = some spec.addr → bytes.length ≤ reach spec →
      ∃ v, (do return .ok (← memcpy o spec.addr bytes) : Except Halt (Except Nat (Objects ι))) = .ok v ∧
        Judged attrs o v := by
    intro bytes htarget hlength
    obtain ⟨o', hcopy, hkept⟩ := memcpy_kept hmem hroom htarget hlength
    refine ⟨.ok o', ?_, hkept⟩
    rw [hcopy]
    rfl
  have htarget : spec.type ≠ .check → spec.type ≠ .ignore → targetAddress spec = some spec.addr := by
    intro h1 h2
    unfold targetAddress
    split <;> trivial
  unfold storeValue
  cases htype : spec.type with
  | integer =>
    exact hstore _ (htarget (by simp [htype]) (by simp [htype]))
      (by simp [numberBytes, reach, width, htype, intBytes_length])
  | uinteger =>
    exact hstore _ (htarget (by simp [htype]) (by simp [htype]))
      (by simp [numberBytes, reach, width, htype, intBytes_length])
  | short =>
    exact hstore _ (htarget (by simp [htype]) (by simp [htype]))
      (by simp [numberBytes, reach, width, htype, intBytes_length])
  | ushort =>
    exact hstore _ (htarget (by simp [htype]) (by simp [htype]))
      (by simp [numberBytes, reach, width, htype, intBytes_length])
  | boolean =>
    exact hstore _ (htarget (by simp [htype]) (by simp [htype]))
      (by simp [boolByte, reach, width, htype])
  | string =>
    obtain ⟨o', hcopy, hkept⟩ := storeString_kept value hmem hroom htype
    refine ⟨.ok o', ?_, hkept⟩
    simp only [hcopy]
    rfl
  | character =>
    dsimp only
    split_ifs
    · exact ⟨_, rfl, (by decide : errStrlong ∈ failures)⟩
    · exact hstore _ (htarget (by simp [htype]) (by simp [htype])) (by simp [reach, width, htype])
  | check =>
    dsimp only
    split_ifs
    · exact ⟨_, rfl, Kept.refl attrs o⟩
    · exact ⟨_, rfl, (by decide : errCheckfail ∈ failures)⟩
  | ignore => exact ⟨_, rfl, Kept.refl attrs o⟩

theorem accept_judged (hmem : spec ∈ attrs) (hroom : Room o spec) (quoted : Bool) (value : List UInt8) :
    ∃ v, accept quoted o spec value = .ok v ∧ Judged attrs o v := by
  unfold accept
  split_ifs
  · exact ⟨_, rfl, (by decide : errQnonstring ∈ failures)⟩
  · exact ⟨_, rfl, (by decide : errNonqstring ∈ failures)⟩
  · cases hvalue : enumerated spec value with
    | error status =>
      have hstatus : status = errBadenum := by
        unfold enumerated at hvalue
        split at hvalue
        · cases hvalue
        · split at hvalue <;> cases hvalue
          rfl
      exact ⟨_, rfl, hstatus ▸ (by decide : errBadenum ∈ failures)⟩
    | ok value => exact storeValue_judged hmem hroom value

variable {text : List UInt8} {p : Parse ι} {cp : List UInt8}

theorem postVal_sound (h : Inside attrs text p cp) (hstate : p.state = .postVal)
    (hroom : ∀ spec ∈ attrs, Room p.objects spec) :
    ∃ m, postVal p cp = .ok m ∧ Sound attrs text p cp m := by
  have hready := h.ready
  simp only [Ready, hstate] at hready
  obtain ⟨⟨hname, hcursor, hinside⟩, hval⟩ := hready
  obtain ⟨attrbuf, hattr⟩ := Option.isSome_iff_exists.mp hname
  obtain ⟨valbuf, hval⟩ := Option.isSome_iff_exists.mp hval
  obtain ⟨c, rest, -, hskip, hsuffix, hnul⟩ := skipSpace_ok h.nul
  obtain ⟨spec, specs, hseek, hspecs⟩ :=
    seek_suffix p.valueQuoted (cstring attrbuf) (cstring valbuf) hcursor
  have hmem : ∀ s ∈ spec :: specs, s ∈ attrs := fun s hs => hinside s (hspecs.subset hs)
  obtain ⟨v, haccept, hjudged⟩ := accept_judged (hmem spec (by simp)) (hroom spec (hmem spec (by simp)))
    p.valueQuoted (cstring valbuf)
  simp only [postVal, hskip, hattr, hval]
  change ∃ m, judge p attrbuf valbuf (c :: rest) = Except.ok m ∧ _
  rw [judge, hseek]
  dsimp only
  rw [haccept]
  cases v with
  | error status => exact ⟨_, rfl, hjudged, Kept.refl attrs _, h.endp⟩
  | ok objects =>
    let q : Parse ι := { p with cursor := spec :: specs, objects := objects }
    have hq : Inside attrs text q (c :: rest) := by
      refine ⟨?_, hsuffix.trans h.suffix, hnul, h.endp⟩
      simp only [Ready, q, hstate]
      exact ⟨⟨hname, by simp, hmem⟩, by simp [hval]⟩
    obtain ⟨m, hm, hsound⟩ := postElement_sound hq
    have hrank : rank q (c :: rest) ≤ rank p cp := by
      have hlength := hsuffix.length_le
      simp only [rank, q, hstate]
      omega
    have hkept : Kept attrs p.objects q.objects := hjudged
    refine ⟨m, ?_, ?_⟩
    · change postElement _ (c :: rest) = _
      simpa [q, hattr, hval] using hm
    cases m with
    | next p' cp' => exact ⟨hsound.1, hkept.trans hsound.2.1, Nat.lt_of_lt_of_le hsound.2.2 hrank⟩
    | give status p' => exact ⟨hsound.1, hkept.trans hsound.2.1, hsound.2.2⟩
    | goodParse p' cp' => exact ⟨hkept.trans hsound.1, hsound.2⟩

theorem step_sound {c : UInt8} {rest : List UInt8} (h : Inside attrs text p (c :: rest)) (hc : c ≠ 0)
    (hroom : ∀ spec ∈ attrs, Room p.objects spec) :
    ∃ m, step attrs p c (c :: rest) = .ok m ∧ Sound attrs text p (c :: rest) m := by
  cases hstate : p.state with
  | init => simpa only [step, hstate] using init_sound h hc
  | awaitAttr => simpa only [step, hstate] using awaitAttr_sound h hc
  | inAttr => simpa only [step, hstate] using inAttr_sound h hc hstate
  | awaitValue => simpa only [step, hstate] using awaitValue_sound h hc hstate
  | inValString => simpa only [step, hstate] using inValString_sound h hc hstate
  | inEscape => simpa only [step, hstate] using inEscape_sound h hc hstate
  | inValToken => simpa only [step, hstate] using inValToken_sound h hc hstate
  | postVal => simpa only [step, hstate] using postVal_sound h hstate hroom
  | postElement => simpa only [step, hstate] using postElement_sound h

def statuses : List Nat := 0 :: errEmpty :: failures

/-- Induction on the fuel, of which each round takes a unit and `rank` says how much is needed. -/
theorem loop_safe {fuel : Nat} (h : Inside attrs text p cp)
    (hroom : ∀ spec ∈ attrs, Room p.objects spec) (hfuel : rank p cp < fuel) :
    ∃ r, loop attrs fuel p cp = .ok r ∧ Kept attrs p.objects r.objects ∧ r.status ∈ statuses ∧
      ∀ e ∈ r.endp, e <:+ text := by
  induction fuel generalizing p cp with
  | zero => omega
  | succ fuel ih =>
    cases cp with
    | nil => cases h.nul
    | cons c rest =>
      change ∃ r, (if c = 0 then _ else _) = Except.ok r ∧ _
      have hgood : ∀ (q : Parse ι) (cp' : List UInt8), Kept attrs p.objects q.objects → cp' <:+ text →
          0 ∈ cp' → ∃ r, goodParse q cp' = .ok r ∧ Kept attrs p.objects r.objects ∧
            r.status ∈ statuses ∧ ∀ e ∈ r.endp, e <:+ text := by
        intro q cp' hkept hsuffix hnul
        obtain ⟨e, hrun, he⟩ := goodParse_ok q hnul
        exact ⟨_, hrun, hkept, (by decide : 0 ∈ statuses), endp_here (he.trans hsuffix)⟩
      split_ifs with hc hinit
      · exact ⟨_, rfl, Kept.refl attrs _, (by decide : errEmpty ∈ statuses), h.endp⟩
      · exact hgood p _ (Kept.refl attrs _) h.suffix h.nul
      · obtain ⟨m, hm, hsound⟩ := step_sound h hc hroom
        change ∃ r, (step attrs p c (c :: rest) >>= _) = Except.ok r ∧ _
        rw [hm]
        cases m with
        | next p' cp' =>
          obtain ⟨hinside, hkept, hrank⟩ := hsound
          obtain ⟨r, hrun, hkept', hrest⟩ := ih hinside
            (fun spec hs => (hroom spec hs).kept hkept) (by omega)
          exact ⟨r, hrun, hkept.trans hkept', hrest⟩
        | give status p' =>
          obtain ⟨hstatus, hkept, hendp⟩ := hsound
          exact ⟨_, rfl, hkept, by simp [statuses, hstatus], hendp⟩
        | goodParse p' cp' =>
          obtain ⟨hkept, hsuffix, hnul⟩ := hsound
          exact hgood p' cp' hkept hsuffix hnul

theorem opening_safe (hnul : 0 ∈ cp) (hroom : ∀ spec ∈ attrs, Room o spec) :
    ∃ o' r, stuffDefaults attrs o = .ok o' ∧ loop attrs (2 * cp.length + 1) (opening o') cp = .ok r ∧
      Kept attrs o r.objects ∧ r.status ∈ statuses ∧ ∀ e ∈ r.endp, e <:+ cp := by
  obtain ⟨o', hdefaults, hkept⟩ := stuffDefaults_kept (fun _ hs => hs) hroom
  have hinside : Inside attrs cp (opening o') cp :=
    ⟨trivial, List.suffix_refl cp, hnul, by simp [opening]⟩
  obtain ⟨r, hrun, hkept', hrest⟩ := loop_safe hinside
    (fun spec hs => (hroom spec hs).kept hkept) (by simp [rank, opening] : _ < 2 * cp.length + 1)
  exact ⟨o', r, hdefaults, hrun, hkept.trans hkept', hrest⟩

theorem jsonReadObject_eq {o' : Objects ι} (h : stuffDefaults attrs o = .ok o') :
    jsonReadObject cp attrs o = loop attrs (2 * cp.length + 1) (opening o') cp := by
  rw [jsonReadObject, h]
  rfl

/-- Whatever the text is. -/
theorem jsonReadObject_safe (attrs : List (JsonAttr ι)) (o : Objects ι) (cp : List UInt8)
    (hnul : 0 ∈ cp) (hroom : ∀ spec ∈ attrs, Room o spec) :
    ∃ r, jsonReadObject cp attrs o = .ok r ∧ Kept attrs o r.objects ∧ r.status ∈ statuses ∧
      ∀ e ∈ r.endp, e <:+ cp := by
  obtain ⟨o', r, hdefaults, hrun, hrest⟩ := opening_safe hnul hroom
  exact ⟨r, (jsonReadObject_eq hdefaults).trans hrun, hrest⟩

end Values

theorem jsonReadObject_safe_number :
    ∃ r, jsonReadObject ([ch '{', ch '"', ch 'n', ch '"', ch ':', ch '7', ch '}', 0])
      [(⟨ascii "n", .integer, (), 0, [], 0, none, false⟩ : JsonAttr Unit)] (fun _ => [9, 9, 9, 9]) = .ok r ∧
      (r.objects ()).length = 4 ∧ r.status ∈ statuses := by
  obtain ⟨r, hrun, hkept, hstatus, -⟩ := jsonReadObject_safe
    [(⟨ascii "n", .integer, (), 0, [], 0, none, false⟩ : JsonAttr Unit)] (fun _ => [9, 9, 9, 9])
    [ch '{', ch '"', ch 'n', ch '"', ch ':', ch '7', ch '}', 0] (by decide) (by
      intro spec hs
      rw [List.mem_singleton.mp hs]
      exact ⟨by decide, fun h => by cases h⟩)
  exact ⟨r, hrun, (hkept ()).1, hstatus⟩

/-- Each status but success has a text of its own, and none is the text for unknown errors. -/
theorem jsonErrorString_statuses : (statuses.map fun s : Nat => jsonErrorString s).Nodup := by
  decide +kernel

end UdpSm.Mjson
