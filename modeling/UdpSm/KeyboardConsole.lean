import UdpSm.Lib.Reflected
import UdpSm.PipelineStep

/-! `KeyboardReadInput.cpp` and `Logger.cpp`: everything that the keys change. -/
namespace UdpSm.KeyboardReadInput
open Lib

/-- `LogLevelEnum` has no negative value: its type is unsigned. -/
structure Logger where
  loggingLevel : UInt32
  verbose : Bool
deriving DecidableEq, Inhabited, Repr

def setLogLevel (level : UInt32) (l : Logger) : Logger :=
  { l with loggingLevel := if level < 0 then 0 else if level > 3 then 3 else level }

def setLogVerbose (verbose : Int) (l : Logger) : Logger := { l with verbose := verbose ≠ 0 }

def openLog (level : UInt32) (verbose : Int) (l : Logger) : Logger :=
  setLogVerbose verbose (setLogLevel level l)

structure Console where
  verbose : Int
  configSleep : Int
  loggingLevel : Int
  common : CommonData
  logger : Logger

def setLevel (level : UInt32) (c : Console) : Console :=
  { c with loggingLevel := level.toNat, logger := setLogLevel level c.logger }

/-- The keys that print, and `#`, which empties the table of percentiles, leave the console alone. -/
def press (c : Console) : Char → Console
  | 'v' =>
    if c.verbose ≠ 0 then { c with verbose := 0, logger := setLogVerbose 0 c.logger }
    else { c with verbose := 1, logger := setLogVerbose 1 c.logger }
  | 's' => { c with configSleep := if c.configSleep > 0 then c.configSleep - 1 else 0 }
  | 'S' => { c with configSleep := if c.configSleep ≥ 0 then c.configSleep + 1 else 0 }
  | '0' => setLevel 0 c
  | '1' => setLevel 1 c
  | '2' => setLevel 2 c
  | '3' => setLevel 3 c
  | key => { c with common := readKeyboardInput c.common (some key) }

def opened (verbose : Bool) (level : Int) (c : CommonData) : Console :=
  { verbose := if verbose then 1 else 0
    configSleep := 0
    loggingLevel := level
    common := c
    logger := openLog (UInt32.ofInt level) (if verbose then 1 else 0) default }

/-! What a key does. -/

def switches : List (Char × UInt32) :=
  [('b', flagShowHeartbeat), ('u', flagShowDecDump), ('x', flagShowHexDump), ('V', flagVerbose),
    ('p', flagShowParser), ('P', flagDontFilterSouceId), ('d', flagShowPublisher),
    ('D', flagShowData), ('t', flagShowTiming), ('T', flagGetTiming)]

def maskOf (key : Char) : UInt32 := (switches.lookup key).getD 0

def stepOf (down up key : Char) : Option Int :=
  if key = down then some (-1) else if key = up then some 1 else none

def moved (v : Int) (d : Option Int) : Int := d.elim v fun d => max 0 (v + d)

section Key
variable (c : CommonData) (k : Console) {key : Char}

theorem maskOf_none (h : ∀ b ∈ switches, key ≠ b.1) : maskOf key = 0 := by
  have hnone : switches.lookup key = none := List.lookup_eq_none_iff.mpr fun b hb => by
    simpa using h b hb
  rw [maskOf, hnone]
  rfl

theorem readKeyboardInput_flags (key : Char) :
    (readKeyboardInput c (some key)).configurationFlags = c.configurationFlags ^^^ maskOf key := by
  unfold readKeyboardInput
  split
  case h_1 h => cases h
  case h_12 h =>
    obtain rfl := Option.some.inj h
    exact UInt32.xor_zero.symm
  case h_13 h =>
    obtain rfl := Option.some.inj h
    exact UInt32.xor_zero.symm
  case h_14 =>
    rw [maskOf_none, UInt32.xor_zero]
    simp only [switches, List.forall_mem_cons]
    simp_all
  all_goals
    rename_i h
    obtain rfl := Option.some.inj h
    rfl

theorem stepOf_none {down up : Char} (hdown : key ≠ down) (hup : key ≠ up) :
    stepOf down up key = none := by
  rw [stepOf, if_neg hdown, if_neg hup]

theorem moved_down {v : Int} (h : 0 ≤ v) : (if v > 0 then v - 1 else 0) = moved v (some (-1)) := by
  change _ = max 0 (v + -1)
  omega

theorem moved_up {v : Int} (h : 0 ≤ v) : (if v ≥ 0 then v + 1 else 0) = moved v (some 1) := by
  change _ = max 0 (v + 1)
  omega

theorem readKeyboardInput_threshold (key : Char) (h : 0 ≤ c.configThreshold) :
    (readKeyboardInput c (some key)).configThreshold =
      moved c.configThreshold (stepOf '-' '+' key) := by
  unfold readKeyboardInput
  split
  case h_1 h => cases h
  case h_12 h' =>
    obtain rfl := Option.some.inj h'
    exact moved_down h
  case h_13 h' =>
    obtain rfl := Option.some.inj h'
    exact moved_up h
  case h_14 =>
    rw [stepOf_none]
    · rfl
    · simp_all
    · simp_all
  all_goals
    rename_i h'
    obtain rfl := Option.some.inj h'
    rfl

theorem press_common (key : Char) : (press k key).common = readKeyboardInput k.common (some key) := by
  unfold press
  split
  case h_1 => split_ifs <;> rfl
  all_goals rfl

theorem press_sleep (key : Char) (h : 0 ≤ k.configSleep) :
    (press k key).configSleep = moved k.configSleep (stepOf 's' 'S' key) := by
  unfold press
  split
  case h_1 => split_ifs <;> rfl
  case h_2 => exact moved_down h
  case h_3 => exact moved_up h
  case h_8 =>
    rw [stepOf_none]
    · rfl
    · simp_all
    · simp_all
  all_goals rfl

structure InStep (k : Console) : Prop where
  level : setLogLevel (UInt32.ofInt k.loggingLevel) k.logger = k.logger
  verbose : setLogVerbose k.verbose k.logger = k.logger

theorem inStep_opened (verbose : Bool) (level : Int) : InStep (opened verbose level c) := ⟨rfl, rfl⟩

theorem InStep.setLogVerbose {k : Console} (h : InStep k) (v : Int) : InStep
    { k with verbose := v, logger := KeyboardReadInput.setLogVerbose v k.logger } :=
  ⟨congrArg (KeyboardReadInput.setLogVerbose v) h.level, rfl⟩

theorem InStep.setLevel {k : Console} (h : InStep k) {level : UInt32}
    (hlevel : UInt32.ofInt level.toNat = level) : InStep (setLevel level k) := by
  refine ⟨?_, congrArg (setLogLevel level) h.verbose⟩
  change setLogLevel (UInt32.ofInt level.toNat) (setLogLevel level k.logger) = setLogLevel level k.logger
  rw [hlevel]
  rfl

theorem InStep.press {k : Console} (h : InStep k) (key : Char) : InStep (press k key) := by
  unfold KeyboardReadInput.press
  split
  case h_1 =>
    split_ifs
    · exact h.setLogVerbose 0
    · exact h.setLogVerbose 1
  case h_4 => exact h.setLevel rfl
  case h_5 => exact h.setLevel rfl
  case h_6 => exact h.setLevel rfl
  case h_7 => exact h.setLevel rfl
  all_goals exact ⟨h.level, h.verbose⟩

end Key

/-! Keys one after another. -/

section Keys
variable {c : CommonData} {k : Console} {ks : List Char}

theorem switches_apart : ∀ b ∈ switches, ∀ b' ∈ switches,
    b'.2 &&& b.2 = if b'.1 = b.1 then b.2 else 0 := by
  have hall : (switches.all fun b => switches.all fun b' =>
      b'.2 &&& b.2 == if b'.1 = b.1 then b.2 else 0) = true := by decide
  intro b hb b' hb'
  exact eq_of_beq (List.all_eq_true.mp (List.all_eq_true.mp hall b hb) b' hb')

theorem maskOf_and {b : Char × UInt32} (hb : b ∈ switches) (key : Char) :
    maskOf key &&& b.2 = if key = b.1 then b.2 else 0 := by
  rw [maskOf]
  cases hlookup : switches.lookup key with
  | none =>
    have hne := List.lookup_eq_none_iff.mp hlookup b hb
    rw [if_neg (by simpa using hne), Option.getD_none, UInt32.zero_and]
  | some m =>
    obtain ⟨before, after, hsplit, -⟩ := List.lookup_eq_some_iff.mp hlookup
    exact switches_apart b hb (key, m) (by rw [hsplit]; simp)

theorem flags_and {b : Char × UInt32} (hb : b ∈ switches) (ks : List Char) :
    (ks.foldl (fun a key => a ^^^ maskOf key) 0) &&& b.2 =
      if ks.count b.1 % 2 = 1 then b.2 else 0 := by
  induction ks using List.reverseRecOn with
  | nil => rw [List.foldl_nil, UInt32.zero_and]; rfl
  | append_singleton ks key ih =>
    rw [List.foldl_append, List.foldl_cons, List.foldl_nil, xor_and, ih, maskOf_and hb,
      List.count_append, List.count_singleton]
    by_cases hkey : key = b.1
    · simp only [hkey, beq_self_eq_true, if_true]
      by_cases hodd : ks.count b.1 % 2 = 1
      · rw [if_pos hodd, if_neg (by omega), UInt32.xor_self]
      · rw [if_neg hodd, if_pos (by omega), UInt32.zero_xor]
    · simp only [hkey, beq_iff_eq, if_false, UInt32.xor_zero, Nat.add_zero]

structure Pressed (ks : List Char) (c : CommonData) : Prop where
  flags : c.configurationFlags = ks.foldl (fun a key => a ^^^ maskOf key) 0
  threshold : c.configThreshold = reflected 0 (ks.filterMap (stepOf '-' '+'))

theorem moved_reflected (ds : List Int) (down up key : Char) :
    moved (reflected 0 ds) (stepOf down up key) =
      reflected 0 (ds ++ (stepOf down up key).toList) := by
  cases stepOf down up key with
  | none => rw [Option.toList_none, List.append_nil]; rfl
  | some d => exact (reflected_snoc 0 ds d).symm

theorem Pressed.key (h : Pressed ks c) (key : Char) :
    Pressed (ks ++ [key]) (readKeyboardInput c (some key)) := by
  refine ⟨?_, ?_⟩
  · rw [readKeyboardInput_flags, h.flags, List.foldl_append]
    rfl
  · have hnonneg : 0 ≤ c.configThreshold := by
      rw [h.threshold]
      exact reflected_nonneg le_rfl _
    rw [readKeyboardInput_threshold c key hnonneg, h.threshold, moved_reflected, filterMap_snoc]

theorem maskOf_lt (key : Char) : (maskOf key).toNat < 2 ^ 10 := by
  rw [maskOf]
  cases hlookup : switches.lookup key with
  | none => decide
  | some m =>
    have hall : (switches.all fun b => b.2.toNat < 2 ^ 10) = true := by decide
    obtain ⟨before, after, hsplit, -⟩ := List.lookup_eq_some_iff.mp hlookup
    have hmem : (key, m) ∈ switches := by
      rw [hsplit]
      simp
    exact of_decide_eq_true (List.all_eq_true.mp hall (key, m) hmem)

theorem flags_lt (ks : List Char) :
    (ks.foldl (fun a key => a ^^^ maskOf key) 0).toNat < 2 ^ 10 := by
  induction ks using List.reverseRecOn with
  | nil => decide
  | append_singleton ks key ih =>
    rw [List.foldl_append, List.foldl_cons, List.foldl_nil, UInt32.toNat_xor]
    exact Nat.xor_lt_two_pow ih (maskOf_lt key)

/-- Fewer than 2^31 presses do not take a setting out of `int`. -/
theorem reflected_le_count (down up : Char) (ks : List Char) :
    reflected 0 (ks.filterMap (stepOf down up)) ≤ ks.count up := by
  induction ks using List.reverseRecOn with
  | nil => exact le_rfl
  | append_singleton ks key ih =>
    rw [filterMap_snoc, ← moved_reflected, List.count_append, List.count_singleton, Nat.cast_add]
    generalize reflected 0 (ks.filterMap (stepOf down up)) = v at ih
    by_cases hdown : key = down
    · have hstep : stepOf down up key = some (-1) := if_pos hdown
      rw [hstep]
      change max 0 (v + -1) ≤ _
      split_ifs <;> omega
    by_cases hup : key = up
    · have hstep : stepOf down up key = some 1 := by rw [stepOf, if_neg hdown, if_pos hup]
      rw [hstep, hup, beq_self_eq_true, if_pos rfl]
      change max 0 (v + 1) ≤ _
      omega
    · rw [stepOf_none hdown hup]
      change v ≤ _
      split_ifs <;> omega

theorem Pressed.flag (h : Pressed ks c) {b : Char × UInt32} (hb : b ∈ switches) :
    c.flag b.2 = decide (ks.count b.1 % 2 = 1) := by
  have hall : (switches.all fun b => b.2 != 0) = true := by decide
  have hne := List.all_eq_true.mp hall b hb
  rw [CommonData.flag, h.flags, flags_and hb]
  split_ifs with hodd
  · rw [hne, decide_eq_true hodd]
  · rw [decide_eq_false hodd]
    rfl

structure Tuned (ks : List Char) (k : Console) : Prop where
  pressed : Pressed ks k.common
  sleep : k.configSleep = reflected 0 (ks.filterMap (stepOf 's' 'S'))
  inStep : InStep k

theorem Tuned.key (h : Tuned ks k) (key : Char) : Tuned (ks ++ [key]) (press k key) := by
  refine ⟨press_common k key ▸ h.pressed.key key, ?_, h.inStep.press key⟩
  have hnonneg : 0 ≤ k.configSleep := by
    rw [h.sleep]
    exact reflected_nonneg le_rfl _
  rw [press_sleep k key hnonneg, h.sleep, moved_reflected, filterMap_snoc]

theorem tuned_keys (verbose : Bool) (level : Int) (hflags : c.configurationFlags = 0)
    (hthreshold : c.configThreshold = 0) (ks : List Char) :
    Tuned ks (ks.foldl press (opened verbose level c)) := by
  induction ks using List.reverseRecOn with
  | nil => exact ⟨⟨hflags, hthreshold⟩, rfl, inStep_opened c verbose level⟩
  | append_singleton ks key ih =>
    rw [List.foldl_append]
    exact ih.key key

end Keys

end UdpSm.KeyboardReadInput

namespace UdpSm.Pipeline
open Lib KeyboardReadInput

def Call.key (c : Call) : Option Char :=
  match c.action with
  | .readKeyboardInput key => key
  | _ => none

def keys (cs : List Call) : List Char := cs.filterMap Call.key

section Console
variable {s s' : System} {c : Call} {cs : List Call}

theorem parse_settings {R : Nat} {q : List (List UInt8)} {x y : ParserImplementation.Context}
    (ht : ParserImplementation.Taken y R q x) : x.common.configThreshold = y.common.configThreshold := by
  cases ht with
  | short => rfl
  | header => rfl
  | foreign => rfl
  | messages hn hf hs d r =>
    obtain ⟨_, _, _, _, hstate, -⟩ := ParserImplementation.updateParserState_eq
      (ParserImplementation.counted y)
    rw [ParserImplementation.finished, hstate]
    rfl

theorem pressed_step (h : Pressed (keys cs) s.common) (hbefore : c.before = s)
    (hnext : Next s c.action s') : Pressed (keys (cs ++ [c])) s'.common := by
  obtain ⟨before, action⟩ := c
  obtain rfl : before = s := hbefore
  have hkeys : keys (cs ++ [⟨before, action⟩]) = keys cs ++ (Call.key ⟨before, action⟩).toList :=
    filterMap_snoc Call.key cs _
  rw [hkeys]
  cases hnext with
  | parse R x ht =>
    rw [Call.key, Option.toList_none, List.append_nil]
    cases ht with
    | idle => exact ⟨h.flags, h.threshold⟩
    | frame F ring0 hsome hrun hcapacity hlength hframes hring ht =>
      refine ⟨?_, (parse_settings ht).trans h.threshold⟩
      have hflags := ht.kept.2.2.2.2.2.2.1
      exact hflags.trans h.flags
  | readKeyboardInput key flags threshold hkey =>
    cases key with
    | none =>
      rw [Call.key, Option.toList_none, List.append_nil]
      have hflags := congrArg CommonData.configurationFlags hkey
      have hthreshold := congrArg CommonData.configThreshold hkey
      exact ⟨hflags.symm.trans h.flags, hthreshold.symm.trans h.threshold⟩
    | some key =>
      have hnext := h.key key
      rw [hkey] at hnext
      exact ⟨hnext.flags, hnext.threshold⟩
  | _ =>
    rw [Call.key, Option.toList_none, List.append_nil]
    exact ⟨h.flags, h.threshold⟩

structure Controlled (ks : List Char) (k : Console) (c : CommonData) : Prop where
  flags : k.common.configurationFlags = c.configurationFlags
  threshold : k.common.configThreshold = c.configThreshold
  /-- A flag is on after an odd number of presses of its key, and there are no others. -/
  switched : ∀ b ∈ switches, c.flag b.2 = decide (ks.count b.1 % 2 = 1)
  unused : c.configurationFlags.toNat < 2 ^ 10
  thresholdValue : IsGreatest {v | ∃ s, s <:+ ks.filterMap (stepOf '-' '+') ∧ s.sum = v}
    c.configThreshold
  sleepValue : IsGreatest {v | ∃ s, s <:+ ks.filterMap (stepOf 's' 'S') ∧ s.sum = v} k.configSleep
  /-- Below 2^31 presses no setting overflows. -/
  presses : c.configThreshold ≤ ks.count '+' ∧ k.configSleep ≤ ks.count 'S'
  inStep : InStep k

/-- In every run of calls, whatever the parameters at the start. -/
theorem console_run {u : Unset} (h : Run Step (initial u) cs s) (verbose : Bool) (level : Int) :
    Controlled (keys cs)
      ((keys cs).foldl press (opened verbose level (initial u).common)) s.common := by
  have hpressed : Pressed (keys cs) s.common :=
    (run_invariant (fun cs s => Pressed (keys cs) s.common) ⟨rfl, rfl⟩
      (fun cs s c s' _ hinv hbefore _ hnext => pressed_step hinv hbefore hnext) h).2
  have htuned := tuned_keys (c := (initial u).common) verbose level rfl rfl (keys cs)
  refine ⟨htuned.pressed.flags.trans hpressed.flags.symm,
    htuned.pressed.threshold.trans hpressed.threshold.symm, fun b hb => hpressed.flag hb, ?_, ?_, ?_,
    ⟨?_, ?_⟩, htuned.inStep⟩
  · rw [hpressed.flags]
    exact flags_lt _
  · rw [hpressed.threshold]
    exact isGreatest_reflected _
  · rw [htuned.sleep]
    exact isGreatest_reflected _
  · rw [hpressed.threshold]
    exact reflected_le_count _ _ _
  · rw [htuned.sleep]
    exact reflected_le_count _ _ _

theorem console_run_held : ∃ cs s, Run Step (initial blank) cs s ∧
    keys cs = ['-', '+', '+', '-', 'T', 'x', 'T'] ∧ s.common.configThreshold = 1 ∧
      s.common.flag flagShowHexDump = true ∧ s.common.flag flagGetTiming = false := by
  obtain ⟨cs, s, hrun, hkeys⟩ := exists_run (s := initial blank)
    (['-', '+', '+', '-', 'T', 'x', 'T'].map fun key => .readKeyboardInput (some key))
    (fun r => keys r.2) (v := ['-', '+', '+', '-', 'T', 'x', 'T']) (by decide +kernel)
  have hall := console_run hrun false 3
  rw [hkeys] at hall
  have hx := hall.switched ('x', flagShowHexDump) (by simp [switches])
  have ht := hall.switched ('T', flagGetTiming) (by simp [switches])
  have hthreshold := hall.threshold
  exact ⟨cs, s, hrun, hkeys, hthreshold.symm.trans (by decide +kernel), hx, ht⟩

end Console

end UdpSm.Pipeline
