import UdpSm.CommonData

/-! `KeyboardReadInput.cpp`: the keys that change data the pipeline reads. The statistics module
is present. -/
namespace UdpSm.KeyboardReadInput

def toggle (c : CommonData) (mask : UInt32) : CommonData :=
  { c with configurationFlags := c.configurationFlags ^^^ mask }

/-- `key` is the character waiting in the keyboard buffer, if there is one. -/
def readKeyboardInput (c : CommonData) (key : Option Char) : CommonData :=
  match key with
  | none => c
  | some 'b' => toggle c flagShowHeartbeat
  | some 'u' => toggle c flagShowDecDump
  | some 'x' => toggle c flagShowHexDump
  | some 'V' => toggle c flagVerbose
  | some 'p' => toggle c flagShowParser
  | some 'P' => toggle c flagDontFilterSouceId
  | some 'd' => toggle c flagShowPublisher
  | some 'D' => toggle c flagShowData
  | some 't' => toggle c flagShowTiming
  | some 'T' => toggle c flagGetTiming
  | some '-' => { c with configThreshold := if c.configThreshold > 0 then c.configThreshold - 1 else 0 }
  | some '+' => { c with configThreshold := if c.configThreshold ≥ 0 then c.configThreshold + 1 else 0 }
  | some _ => c

theorem readKeyboardInput_kept (c : CommonData) (key : Option Char) : ∃ flags threshold,
    readKeyboardInput c key =
      { c with configurationFlags := flags, configThreshold := threshold } := by
  unfold readKeyboardInput
  split <;> exact ⟨_, _, rfl⟩

/-! The keys without the one that toggles the timing flag. -/

def untimedKey (key : Option Char) : Option Char := if key = some 'T' then none else key

theorem xor_and (a b k : UInt32) : (a ^^^ b) &&& k = (a &&& k) ^^^ (b &&& k) := by
  apply UInt32.toBitVec_inj.mp
  ext i hi
  simp [Bool.and_xor_distrib_right]

section Untimed
variable {c d : CommonData}

theorem toggle_untimed (h : d.configurationFlags = c.configurationFlags &&& ~~~flagGetTiming)
    {mask : UInt32} (hmask : mask &&& ~~~flagGetTiming = mask) : (toggle d mask).configurationFlags =
      (toggle c mask).configurationFlags &&& ~~~flagGetTiming := by
  simp only [toggle, h, xor_and, hmask]

theorem readKeyboardInput_untimed
    (h : d.configurationFlags = c.configurationFlags &&& ~~~flagGetTiming) (key : Option Char) :
    (readKeyboardInput d (untimedKey key)).configurationFlags =
      (readKeyboardInput c key).configurationFlags &&& ~~~flagGetTiming := by
  by_cases hkey : key = some 'T'
  · subst hkey
    change d.configurationFlags = (c.configurationFlags ^^^ flagGetTiming) &&& ~~~flagGetTiming
    rw [h, xor_and, UInt32.and_not_self, UInt32.xor_zero]
  · rw [untimedKey, if_neg hkey]
    unfold readKeyboardInput
    split
    case h_11 => exact absurd rfl hkey
    all_goals first | exact h | exact toggle_untimed h (by decide)

end Untimed

end UdpSm.KeyboardReadInput
