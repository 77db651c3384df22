import UdpSm.InputArgumentsSettings

/-! The parameters after any file, well formed or not. -/
namespace UdpSm
open Lib Mjson

namespace InputArguments
variable {o o' : InputArguments}

structure Survives (o o' : InputArguments) : Prop where
  sized : Sized o'
  lastByte : ∀ f, (spec f).type = .string →
    (o' f).drop (sizeOfField f - 1) = (o f).drop (sizeOfField f - 1)

theorem Survives.trans {o'' : InputArguments} (h : Survives o o') (h' : Survives o' o'') :
    Survives o o'' :=
  ⟨h'.sized, fun f hf => (h'.lastByte f hf).trans (h.lastByte f hf)⟩

theorem cleared_survives (h : Sized o) : Survives o (cleared o) := by
  refine ⟨cleared_sized h, fun f hf => ?_⟩
  obtain ⟨-, hpos, -⟩ := spec_len hf
  have hzeros : zeros f = [0] := by rw [zeros, hf, if_neg (by decide)]
  rw [cleared, hzeros, List.drop_append, List.drop_eq_nil_of_le (by simp; omega), List.nil_append,
    List.drop_drop, List.length_singleton, Nat.add_sub_cancel' (by omega)]

theorem Survives.of_kept (hsize : Sized o) (h : Kept jsonAttributes o o') : Survives o o' := by
  refine ⟨fun f => (h f).1.trans (hsize f), fun f hf => (h f).2 _ ?_⟩
  intro s hs htarget
  obtain ⟨g, rfl⟩ := exists_spec hs
  have hg : g = f := by
    unfold targetAddress at htarget
    split at htarget
    · cases htarget
    · cases htarget
    · rw [spec_addr] at htarget
      exact Option.some.inj htarget
  subst hg
  obtain ⟨hlen, hpos, -⟩ := spec_len hf
  rw [reach, if_pos hf, hlen]
  omega

theorem excludeAscii_survives (h : Sized o) : ∃ o', excludeAscii o = .ok o' ∧ Survives o o' ∧
    (o' .configDumpReceivedPacketsInHexadecimalFormat = [0] ∨
      o' .configDumpReceivedPacketsInAsciiFormat = [0]) := by
  unfold excludeAscii
  split_ifs with hoff
  · exact ⟨o, rfl, ⟨h, fun _ _ => rfl⟩, .inl hoff⟩
  · refine ⟨_, memcpy_ok (by rw [h]; decide), ⟨fun f => ?_, fun f hf => ?_⟩, .inr ?_⟩
    · by_cases hf : f = .configDumpReceivedPacketsInAsciiFormat
      · subst hf
        rw [written_self, List.length_append, List.length_drop, h]
        rfl
      · rw [written_other hf, h f]
    · have hne : f ≠ .configDumpReceivedPacketsInAsciiFormat := by
        rintro rfl
        exact absurd hf (by decide)
      rw [written_other hne]
    · rw [written_self, List.drop_eq_nil_of_le (by rw [h]; decide), List.append_nil]

theorem cleared_hex (h : Sized o) : cleared o .configDumpReceivedPacketsInHexadecimalFormat = [0] := by
  have hzeros : zeros .configDumpReceivedPacketsInHexadecimalFormat = [0] := by decide
  rw [cleared, hzeros, List.drop_eq_nil_of_le (by rw [h]; decide)]
  rfl

theorem nul_mem_buffer (file : Option (List UInt8 × Nat)) : 0 ∈ readJsonStringFromFile file := by
  have hzeros : ∀ n, n ≠ 0 → (0 : UInt8) ∈ List.replicate n 0 := fun n hn =>
    List.mem_replicate.mpr ⟨hn, rfl⟩
  unfold readJsonStringFromFile
  split
  · exact hzeros _ (by decide)
  · split_ifs with h
    · exact List.mem_append_right _ (hzeros _ (by omega))
    · exact hzeros _ (by decide)

/-- What is returned: -1, or a status of the reader with a text that is its own. -/
def Explained (status : Int) : Prop :=
  status = -1 ∨ ∃ s ∈ statuses, status = (s : Int) ∧ (s = 0 ∨ jsonErrorString status ∈ errors.tail) ∧
    ∀ t ∈ statuses, jsonErrorString t = jsonErrorString status → t = s

theorem explained_of_mem {s : Nat} (h : s ∈ statuses) : Explained s := by
  refine .inr ⟨s, h, rfl, ?_, fun t ht hsame => ?_⟩
  · revert s
    decide +kernel
  · exact List.inj_on_of_nodup_map jsonErrorString_statuses ht h hsame

structure Outcome (o : InputArguments) (status : Int) (o' : InputArguments) : Prop where
  status : Explained status
  survives : Survives o o'
  oneDump : o' .configDumpReceivedPacketsInHexadecimalFormat = [0] ∨
    o' .configDumpReceivedPacketsInAsciiFormat = [0]

theorem parseParameters_ends (argc : Nat) (file : Option (List UInt8 × Nat)) (hsize : Sized o) :
    ∃ status o', parseParameters argc file o = .ok (status, o') ∧ Outcome o status o' := by
  have hreset := cleared_survives hsize
  rw [parseParameters, reset_cleared hsize]
  change ∃ status o', (if argc < 2 then _ else
    jsonReadObject (readJsonStringFromFile file) jsonAttributes (cleared o) >>= _) = _ ∧ _
  split_ifs
  · exact ⟨-1, cleared o, rfl, .inl rfl, hreset, .inl (cleared_hex hsize)⟩
  · obtain ⟨_, r, hdefaults, hrun, hkept, hstatus, -⟩ :=
      opening_safe (nul_mem_buffer file) hreset.sized.room
    have hparsed := Survives.of_kept hreset.sized hkept
    obtain ⟨o', hend, hsurvives, hone⟩ := excludeAscii_survives hparsed.sized
    refine ⟨r.status, o', ?_, explained_of_mem hstatus,
      (hreset.trans hparsed).trans hsurvives, hone⟩
    rw [jsonReadObject_eq hdefaults, hrun]
    change (excludeAscii r.objects >>= _) = _
    rw [hend]
    rfl

theorem Outcome.terminated {status : Int} (h : Outcome o status o') {f : Field}
    (hf : (spec f).type = .string) (hlast : (o f).drop (sizeOfField f - 1) = [0]) : 0 ∈ o' f := by
  have hmem : (0 : UInt8) ∈ (o' f).drop (sizeOfField f - 1) := by
    rw [h.survives.lastByte f hf, hlast]
    simp
  exact List.mem_of_mem_drop hmem

theorem last_byte (hsize : Sized o) {f : Field} (hf : (spec f).type = .string) :
    ∃ b, (o f).drop (sizeOfField f - 1) = [b] ∧ (o f).getLast? = some b := by
  obtain ⟨-, hpos, -⟩ := spec_len hf
  have hne : o f ≠ [] := by
    intro hnil
    have hlength := hsize f
    rw [hnil, List.length_nil] at hlength
    omega
  refine ⟨(o f).getLast hne, ?_, List.getLast?_eq_some_getLast hne⟩
  rw [← hsize f, List.drop_length_sub_one hne]

/-! A string of one character less than its member has bytes leaves no place for a terminator. -/

def filling (f : Field) : Setting := .text f (List.replicate (sizeOfField f - 1) (.plain (ch 'a')))

def plainLayout : Layout := ⟨[], [], []⟩

theorem filling_accepted {f : Field} (hf : (spec f).type = .string) : (filling f).Accepted := by
  refine ⟨hf, fun l hl => ?_, ?_⟩
  · rw [List.eq_of_mem_replicate hl]
    exact (by decide : ch 'a' ≠ 0 ∧ ch 'a' ≠ ch '"' ∧ ch 'a' ≠ ch '\\')
  · rw [List.length_replicate]
    exact Nat.sub_le _ _

theorem filling_image (f : Field) :
    (filling f).image = List.replicate (sizeOfField f - 1) (ch 'a') := by
  have hplain : 0 ∉ List.replicate (sizeOfField f - 1) (ch 'a') := by
    intro h
    exact absurd (List.eq_of_mem_replicate h) (by decide)
  simp only [filling, Setting.image, List.map_replicate, Letter.byte]
  rw [cstring_eq_self hplain, filled, List.length_replicate, List.take_replicate]
  simp

theorem stored_filling (f : Field) (o : InputArguments) :
    stored o [filling f] = written o f (List.replicate (sizeOfField f - 1) (ch 'a')) := by
  rw [← filling_image]
  rfl

theorem filling_file (f : Field) (hf : (spec f).type = .string) :
    (fileOf [] [(filling f, plainLayout)] []).length < bufferSize := by
  have hlength : (fileOf [] [(filling f, plainLayout)] []).length =
      (spec f).attributeName.length + (sizeOfField f - 1) + 6 := by
    have hletters : (List.flatMap Letter.text (List.replicate (sizeOfField f - 1)
        (.plain (ch 'a')))).length = sizeOfField f - 1 := by
      simp [List.length_flatMap, Letter.text]
    have hname : (member (filling f, plainLayout)).name = (spec f).attributeName := rfl
    simp only [fileOf, List.map_cons, List.map_nil, render_one, Member.text, Member.named, hname]
    simp only [member, filling, plainLayout, Setting.literal, Literal.text, List.nil_append,
      List.length_cons, List.length_append, List.append_nil, hletters, List.length_nil]
    omega
  obtain ⟨-, -, hle⟩ := spec_len hf
  have hshort := name_short f
  rw [hlength]
  simp only [attrMax, bufferSize] at *
  omega

theorem parseParameters_filling {f : Field} (hsize : Sized o) (hf : (spec f).type = .string) {b : UInt8}
    (hlast : (o f).getLast? = some b) : ∃ file o', parseParameters 2 file o = .ok (0, o') ∧
      o' f = List.replicate (sizeOfField f - 1) (ch 'a') ++ [b] := by
  obtain ⟨c, hdrop, hget⟩ := last_byte hsize hf
  obtain rfl : b = c := Option.some.inj (hlast.symm.trans hget)
  have hrun := parseParameters_file (o := o) (by omega : 2 ≤ 2) hsize (fun c hc => absurd hc (by simp))
    (List.cons_ne_nil (filling f, plainLayout) [])
    (fun x hx => by
      rw [List.mem_singleton.mp hx]
      exact ⟨filling_accepted hf, by simp [plainLayout], by simp [plainLayout], by simp [plainLayout]⟩)
    (filling_file f hf)
  have hoff : written (cleared o) f (List.replicate (sizeOfField f - 1) (ch 'a'))
      .configDumpReceivedPacketsInHexadecimalFormat = [0] := by
    have hne : Field.configDumpReceivedPacketsInHexadecimalFormat ≠ f := by
      rintro rfl
      exact absurd hf (by decide)
    rw [written_other hne, cleared_hex hsize]
  rw [List.map_singleton, stored_filling f (cleared o), excludeAscii, if_pos hoff] at hrun
  refine ⟨_, _, hrun, ?_⟩
  rw [written_self, List.length_replicate, (cleared_survives hsize).lastByte f hf, hdrop]

/-- The file that fills a string leaves it without a NUL, unless its last byte is one. -/
theorem last_of_terminated {f : Field} (hsize : Sized o) (hf : (spec f).type = .string)
    (h : ∀ file o', parseParameters 2 file o = .ok (0, o') → 0 ∈ o' f) : (o f).getLast? = some 0 := by
  obtain ⟨b, -, hlast⟩ := last_byte hsize hf
  obtain ⟨file, o', hrun, hvalue⟩ := parseParameters_filling hsize hf hlast
  have hmem := h file o' hrun
  rw [hvalue, List.mem_append, List.mem_singleton] at hmem
  obtain hletter | hzero := hmem
  · exact absurd (List.eq_of_mem_replicate hletter) (by decide)
  · rw [hlast, ← hzero]

theorem Outcome.terminated_of_last {status : Int} (h : Outcome o status o') (hsize : Sized o) {f : Field}
    (hf : (spec f).type = .string) (hlast : (o f).getLast? = some 0) : 0 ∈ o' f := by
  obtain ⟨b, hdrop, hget⟩ := last_byte hsize hf
  obtain rfl : b = 0 := Option.some.inj (hget.symm.trans hlast)
  exact h.terminated hf hdrop

/-- Whatever the arguments and the file are, the reading ends with a status that has a text. It
prints no byte behind a name, for every file, just if each name ended in a NUL before. -/
theorem readParameters_safe (o : InputArguments) (hsize : Sized o) :
    (∀ argc file, ∃ status o', parseParameters argc file o = .ok (status, o') ∧ Explained status ∧
      Survives o o' ∧ (o' .configDumpReceivedPacketsInHexadecimalFormat = [0] ∨
        o' .configDumpReceivedPacketsInAsciiFormat = [0]) ∧
      readParameters argc file o =
        if argc < 2 ∨ Terminated o' then .ok (status, o') else .error .outOfBounds) ∧
    ((∀ argc file, ∃ r, readParameters argc file o = .ok r) ↔
      ∀ f, (spec f).type = .string → (o f).getLast? = some 0) := by
  constructor
  · intro argc file
    obtain ⟨status, o', hparse, h⟩ := parseParameters_ends argc file hsize
    refine ⟨status, o', hparse, h.status, h.survives, h.oneDump, ?_⟩
    split_ifs with hok
    · exact readParameters_ok hparse hok
    · rw [not_or] at hok
      exact readParameters_halts hparse (by omega) hok.2
  · constructor
    · intro hall f hf
      refine last_of_terminated hsize hf fun file o' hparse => ?_
      by_contra hnone
      obtain ⟨r, hrun⟩ := hall 2 file
      rw [readParameters_halts hparse le_rfl fun h => hnone (h f hf)] at hrun
      cases hrun
    · intro hlast argc file
      obtain ⟨status, o', hparse, h⟩ := parseParameters_ends argc file hsize
      exact ⟨_, readParameters_ok hparse (.inr fun f hf => h.terminated_of_last hsize hf (hlast f hf))⟩

theorem readParameters_safe_unread : (∃ status o',
    parseParameters 2 (some ([ch '{', ch '"'], 2)) unread = .ok (status, o') ∧ Explained status ∧
      Survives unread o') ∧ ¬∀ argc file, ∃ r, readParameters argc file unread = .ok r := by
  obtain ⟨hall, hiff⟩ := readParameters_safe unread unread_sized
  obtain ⟨status, o', hparse, hstatus, hsurvives, -, -⟩ := hall 2 (some ([ch '{', ch '"'], 2))
  refine ⟨⟨status, o', hparse, hstatus, hsurvives⟩, ?_⟩
  rw [hiff]
  intro hlast
  exact absurd (hlast .networkInterfaceName rfl) (by decide)

/-- A string member ends in its array after every file just if its last byte was a NUL before. -/
theorem readParameters_terminates (o : InputArguments) (f : Field) (hsize : Sized o)
    (hf : (spec f).type = .string) :
    (∀ argc file status o', parseParameters argc file o = .ok (status, o') → 0 ∈ o' f) ↔
      (o f).getLast? = some 0 := by
  constructor
  · intro h
    exact last_of_terminated hsize hf fun file o' hparse => h 2 file 0 o' hparse
  · intro hlast argc file status o' hparse
    obtain ⟨status', p, hends, houtcome⟩ := parseParameters_ends argc file hsize
    obtain ⟨rfl, rfl⟩ : status' = status ∧ p = o' := by
      simpa using Except.ok.inj (hends.symm.trans hparse)
    exact houtcome.terminated_of_last hsize hf hlast

theorem readParameters_terminates_unread : ¬∀ argc file status o',
    parseParameters argc file unread = .ok (status, o') → 0 ∈ o' .networkInterfaceName := by
  rw [readParameters_terminates unread .networkInterfaceName unread_sized rfl]
  decide

end InputArguments

end UdpSm
