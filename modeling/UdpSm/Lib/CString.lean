import UdpSm.Lib.Endian
import Mathlib.Data.Nat.Digits.Lemmas
import Mathlib.Data.List.TakeWhile
import Mathlib.Tactic.IntervalCases

/-! Character arrays of C: the classes of characters in the C locale, strings that end at a NUL,
and the conversions between numbers and their digits. -/
namespace UdpSm.Lib

def ch (c : Char) : UInt8 := UInt8.ofNat c.toNat
def ascii (s : String) : List UInt8 := s.toList.map ch

def isspace (c : UInt8) : Bool := c == 32 || (9 ≤ c && c ≤ 13)
def isdigit (c : UInt8) : Bool := 48 ≤ c && c ≤ 57
def isxdigit (c : UInt8) : Bool := isdigit c || (65 ≤ c && c ≤ 70) || (97 ≤ c && c ≤ 102)

def cstring (bytes : List UInt8) : List UInt8 := bytes.takeWhile (· != 0)

def digitValue (c : UInt8) : Nat :=
  if isdigit c then c.toNat - 48
  else if 97 ≤ c && c ≤ 122 then c.toNat - 87
  else if 65 ≤ c && c ≤ 90 then c.toNat - 55
  else 36

def digitsValue (base : Nat) : Nat → List UInt8 → Nat
  | acc, [] => acc
  | acc, c :: cs => if digitValue c < base then digitsValue base (acc * base + digitValue c) cs else acc

def radix : List UInt8 → Nat × List UInt8
  | 48 :: x :: h :: cs =>
    if (x == ch 'x' || x == ch 'X') && digitValue h < 16 then (16, h :: cs) else (8, x :: h :: cs)
  | 48 :: cs => (8, cs)
  | cs => (10, cs)

/-- `long` holds 64 bits, and what does not fit is cut to the nearest end of its range. -/
def clampLong (v : Int) : Int := max (-(2 ^ 63)) (min v (2 ^ 63 - 1))

def unsignedValue (base : Nat) (cs : List UInt8) : Nat :=
  if base = 0 then digitsValue (radix cs).1 0 (radix cs).2 else digitsValue base 0 cs

def strtol (base : Nat) (s : List UInt8) : Int :=
  match s.dropWhile isspace with
  | 45 :: cs => clampLong (-(unsignedValue base cs : Int))
  | 43 :: cs => clampLong (unsignedValue base cs)
  | cs => clampLong (unsignedValue base cs)

def decimalNat (n : Nat) : List UInt8 :=
  if n = 0 then [48] else (Nat.digits 10 n).reverse.map fun d => UInt8.ofNat (48 + d)

def decimal (v : Int) : List UInt8 :=
  if v < 0 then 45 :: decimalNat v.natAbs else decimalNat v.natAbs

theorem forall_of_all {p : UInt8 → Prop} [DecidablePred p] {cs : List UInt8}
    (h : (cs.all fun c => decide (p c)) = true) : ∀ c ∈ cs, p c := by
  intro c hc
  exact of_decide_eq_true (List.all_eq_true.mp h c hc)

section Strings
variable {bytes rest : List UInt8}

theorem zero_not_mem_cstring : 0 ∉ cstring bytes := by
  intro h
  simpa using List.mem_takeWhile_imp h

theorem cstring_length_le : (cstring bytes).length ≤ bytes.length :=
  (List.takeWhile_prefix _).length_le

theorem cstring_append (rest : List UInt8) (h : 0 ∉ bytes) : cstring (bytes ++ rest) = bytes ++ cstring rest := by
  rw [cstring, List.takeWhile_append_of_pos]
  · rfl
  · intro b hb
    have hne : b ≠ 0 := fun hz => h (hz ▸ hb)
    simpa using hne

theorem cstring_eq_self (h : 0 ∉ bytes) : cstring bytes = bytes := by
  simpa [cstring] using cstring_append [] h

theorem cstring_closed (h : 0 ∉ bytes) : cstring (bytes ++ 0 :: rest) = bytes := by
  rw [cstring_append _ h]
  simp [cstring]

theorem cstring_cut (bytes rest : List UInt8) : cstring (bytes ++ 0 :: rest) = cstring bytes := by
  induction bytes with
  | nil => rfl
  | cons b bytes ih =>
    unfold cstring at *
    rw [List.cons_append, List.takeWhile_cons, List.takeWhile_cons, ih]

theorem cstring_terminated (bytes : List UInt8) : cstring (bytes ++ [0]) = cstring bytes :=
  cstring_cut bytes []

theorem cstring_eq_nil : cstring bytes = [] ↔ bytes = [] ∨ bytes.head? = some 0 := by
  cases bytes with
  | nil => simp [cstring]
  | cons b bytes =>
    by_cases hb : b = 0
    · simp [cstring, hb]
    · simp [cstring, hb]

theorem cstring_length_lt (h : 0 ∈ bytes) : (cstring bytes).length < bytes.length := by
  refine Nat.lt_of_le_of_ne cstring_length_le fun hlength => ?_
  have hall : cstring bytes = bytes := (List.takeWhile_prefix _).eq_of_length hlength
  rw [← hall] at h
  exact zero_not_mem_cstring h

theorem dropWhile_space {spaces : List UInt8} (hspaces : ∀ c ∈ spaces, isspace c = true)
    (hrest : ∀ c ∈ rest.head?, isspace c = false) : (spaces ++ rest).dropWhile isspace = rest := by
  rw [List.dropWhile_append_of_pos hspaces]
  cases rest with
  | nil => rfl
  | cons c cs => simp [hrest c rfl]

end Strings

section Numbers

theorem digitValue_decimal {d : Nat} (h : d < 10) : digitValue (UInt8.ofNat (48 + d)) = d := by
  interval_cases d <;> rfl

theorem digitsValue_append {base : Nat} {cs rest : List UInt8}
    (h : ∀ c ∈ cs, digitValue c < base) (acc : Nat) :
    digitsValue base acc (cs ++ rest) = digitsValue base (digitsValue base acc cs) rest := by
  induction cs generalizing acc with
  | nil => rfl
  | cons c cs ih =>
    have hc := h c (by simp)
    simp only [List.cons_append, digitsValue, if_pos hc]
    exact ih (fun c hc => h c (by simp [hc])) _

theorem digitsValue_digits (n : Nat) : digitsValue 10 0 ((Nat.digits 10 n).reverse.map
    fun d => UInt8.ofNat (48 + d)) = n := by
  have hall : ∀ ds : List Nat, (∀ d ∈ ds, d < 10) → digitsValue 10 0 (ds.reverse.map
      fun d => UInt8.ofNat (48 + d)) = Nat.ofDigits 10 ds := by
    intro ds
    induction ds with
    | nil => intro _; rfl
    | cons d ds ih =>
      intro hds
      have hd := hds d (by simp)
      have hrest : ∀ c ∈ ds.reverse.map (fun d => UInt8.ofNat (48 + d)), digitValue c < 10 := by
        intro c hc
        obtain ⟨e, he, rfl⟩ := List.mem_map.mp hc
        have he10 := hds e (by simpa using Or.inr he)
        rwa [digitValue_decimal he10]
      rw [List.reverse_cons, List.map_append, digitsValue_append hrest,
        ih (fun e he => hds e (by simp [he]))]
      simp only [List.map_cons, List.map_nil, digitsValue, digitValue_decimal hd, if_pos hd,
        Nat.ofDigits_cons]
      ring
  rw [hall _ (fun d hd => Nat.digits_lt_base (by omega) hd), Nat.ofDigits_digits]

theorem decimalNat_ne_nil (n : Nat) : decimalNat n ≠ [] := by
  unfold decimalNat
  split_ifs with h
  · simp
  · simpa [Nat.digits_ne_nil_iff_ne_zero] using h

theorem mem_decimalNat {n : Nat} {c : UInt8} (h : c ∈ decimalNat n) :
    ∃ d < 10, c = UInt8.ofNat (48 + d) := by
  unfold decimalNat at h
  split_ifs at h with hn
  · exact ⟨0, by omega, by simpa using h⟩
  · obtain ⟨d, hd, rfl⟩ := List.mem_map.mp h
    exact ⟨d, Nat.digits_lt_base (by omega) (List.mem_reverse.mp hd), rfl⟩

theorem decimalNat_length {n k : Nat} (h : n < 10 ^ (k + 1)) : (decimalNat n).length ≤ k + 1 := by
  unfold decimalNat
  split_ifs
  · simp
  · simpa using (Nat.digits_length_le_iff (by omega) n).mpr h

theorem decimal_length {v : Int} {k : Nat} (h : v.natAbs < 10 ^ (k + 1)) :
    (decimal v).length ≤ k + 2 := by
  have hdigits := decimalNat_length h
  unfold decimal
  split_ifs
  · rw [List.length_cons]
    omega
  · omega

theorem mem_decimal {v : Int} {c : UInt8} (h : c ∈ decimal v) :
    c = 45 ∨ ∃ d < 10, c = UInt8.ofNat (48 + d) := by
  unfold decimal at h
  split_ifs at h
  · obtain rfl | hdigit := List.mem_cons.mp h
    · exact .inl rfl
    · exact .inr (mem_decimalNat hdigit)
  · exact .inr (mem_decimalNat h)

theorem decimal_ne_nil (v : Int) : decimal v ≠ [] := by
  unfold decimal
  split_ifs
  · simp
  · exact decimalNat_ne_nil _

theorem digitsValue_decimalNat (n : Nat) : digitsValue 10 0 (decimalNat n) = n := by
  unfold decimalNat
  split_ifs with h
  · rw [h]; rfl
  · exact digitsValue_digits n

/-- Reading a decimal number back gives the number, if `long` has room for it. -/
theorem strtol_decimal {v : Int} (h1 : -(2 ^ 63) ≤ v) (h2 : v < 2 ^ 63) : strtol 10 (decimal v) = v := by
  have hvalue : unsignedValue 10 (decimalNat v.natAbs) = v.natAbs := by
    simpa [unsignedValue] using digitsValue_decimalNat v.natAbs
  have hclamp : clampLong v = v := by
    unfold clampLong
    omega
  unfold decimal
  split_ifs with hneg
  · change clampLong (-((unsignedValue 10 (decimalNat v.natAbs) : Nat) : Int)) = v
    rw [hvalue, show -((v.natAbs : Nat) : Int) = v by omega, hclamp]
  · obtain ⟨c, cs, hcons⟩ := List.exists_cons_of_ne_nil (decimalNat_ne_nil v.natAbs)
    obtain ⟨d, hd, rfl⟩ := mem_decimalNat (n := v.natAbs) (c := c) (by simp [hcons])
    have hplain : strtol 10 (UInt8.ofNat (48 + d) :: cs) =
        clampLong (unsignedValue 10 (UInt8.ofNat (48 + d) :: cs)) := by
      interval_cases d <;> rfl
    rw [hcons, hplain, ← hcons, hvalue, show ((v.natAbs : Nat) : Int) = v by omega, hclamp]

end Numbers

end UdpSm.Lib
