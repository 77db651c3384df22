import UdpSm.MjsonMembers

/-! From the states of the parser to members: what each state makes of the part of a member that
it reads. -/
namespace UdpSm.Mjson
open Lib
variable {ι : Type} [DecidableEq ι] {attrs : List (JsonAttr ι)} {p p' : Parse ι}
  {c : UInt8} {cp rest : List UInt8} {r : Result ι}

/-- With fuel enough, the parse from here gives `r`. -/
def Parses (attrs : List (JsonAttr ι)) (p : Parse ι) (cp : List UInt8) (r : Result ι) : Prop :=
  ∃ fuel, loop attrs fuel p cp = .ok r

def proceed (attrs : List (JsonAttr ι)) (fuel : Nat) : Move ι → Except Halt (Result ι)
  | .next p cp => loop attrs fuel p cp
  | .give status p => .ok ⟨status, p.objects, p.endp⟩
  | .goodParse p cp => goodParse p cp

theorem loop_round (fuel : Nat) (hc : c ≠ 0) :
    loop attrs (fuel + 1) p (c :: rest) = step attrs p c (c :: rest) >>= proceed attrs fuel := by
  change (if c = 0 then _ else step attrs p c (c :: rest) >>= _) = _
  rw [if_neg hc]
  rfl

theorem loop_step (fuel : Nat) (hc : c ≠ 0) {m : Move ι} (h : step attrs p c (c :: rest) = .ok m) :
    loop attrs (fuel + 1) p (c :: rest) = proceed attrs fuel m := by
  rw [loop_round fuel hc, h]
  rfl

theorem Parses.next (h : Parses attrs p' cp r) (hc : c ≠ 0)
    (hstep : step attrs p c (c :: rest) = .ok (.next p' cp)) : Parses attrs p (c :: rest) r := by
  obtain ⟨fuel, hrun⟩ := h
  exact ⟨fuel + 1, (loop_step fuel hc hstep).trans hrun⟩

theorem Parses.give {status : Nat} {o : Objects ι} {e : Option (List UInt8)} (hc : c ≠ 0)
    (hstep : step attrs p c (c :: rest) = .ok (.give status p')) (ho : p'.objects = o)
    (he : p'.endp = e) : Parses attrs p (c :: rest) ⟨status, o, e⟩ := by
  subst ho he
  exact ⟨1, loop_step 0 hc hstep⟩

theorem Parses.good (hc : c ≠ 0) (hstep : step attrs p c (c :: rest) = .ok (.goodParse p' cp))
    (hgood : goodParse p' cp = .ok r) : Parses attrs p (c :: rest) r :=
  ⟨1, (loop_step 0 hc hstep).trans hgood⟩

theorem loop_mono {n m : Nat} (h : loop attrs n p cp = .ok r) (hle : n ≤ m) :
    loop attrs m p cp = .ok r := by
  induction n generalizing m p cp with
  | zero => cases h
  | succ n ih =>
    obtain ⟨m, rfl⟩ : ∃ k, m = k + 1 := ⟨m - 1, by omega⟩
    cases cp with
    | nil => cases h
    | cons c rest =>
      by_cases hc : c = 0
      · subst hc
        exact h
      · cases hstep : step attrs p c (c :: rest) with
        | error e =>
          rw [loop_round n hc, hstep] at h
          cases h
        | ok move =>
          rw [loop_step n hc hstep] at h
          rw [loop_step m hc hstep]
          cases move with
          | next p' cp' => exact ih h (by omega)
          | give status p' => exact h
          | goodParse p' cp' => exact h

theorem Parses.unique {r' : Result ι} (h : Parses attrs p cp r) (h' : Parses attrs p cp r') : r = r' := by
  obtain ⟨n, hn⟩ := h
  obtain ⟨m, hm⟩ := h'
  have h1 := loop_mono hn (Nat.le_max_left n m)
  have h2 := loop_mono hm (Nat.le_max_right n m)
  exact Except.ok.inj (h1.symm.trans h2)

section Rounds

theorem step_init (h : p.state = .init) : step attrs p c cp = init p c cp := by
  simp only [step, h]

theorem step_awaitAttr (h : p.state = .awaitAttr) : step attrs p c cp = awaitAttr p c cp := by
  simp only [step, h]

theorem step_inAttr (h : p.state = .inAttr) : step attrs p c cp = inAttr attrs p c cp := by
  simp only [step, h]

theorem step_awaitValue (h : p.state = .awaitValue) : step attrs p c cp = awaitValue p c cp := by
  simp only [step, h]

theorem step_inValString (h : p.state = .inValString) : step attrs p c cp = inValString p c cp := by
  simp only [step, h]

theorem step_inEscape (h : p.state = .inEscape) : step attrs p c cp = inEscape p c cp := by
  simp only [step, h]

theorem step_inValToken (h : p.state = .inValToken) : step attrs p c cp = inValToken p c cp := by
  simp only [step, h]

theorem step_postVal (h : p.state = .postVal) : step attrs p c cp = postVal p cp := by
  simp only [step, h]

end Rounds

/-! The name. -/

theorem scan_start {space : List UInt8} (hstate : p.state = .init)
    (hspace : ∀ c ∈ space, isspace c = true)
    (h : Parses attrs { p with state := .awaitAttr } rest r) :
    Parses attrs p (space ++ ch '{' :: rest) r := by
  induction space with
  | nil => exact h.next (by decide) (step_init hstate)
  | cons c space ih =>
    have hc := hspace c (by simp)
    have hzero : c ≠ 0 := by
      rintro rfl
      exact absurd hc (by decide)
    refine Parses.next (ih fun d hd => hspace d (by simp [hd])) hzero ((step_init hstate).trans ?_)
    rw [init, if_pos hc]
    rfl

theorem scan_before {before : List UInt8} (hstate : p.state = .awaitAttr)
    (hbefore : ∀ c ∈ before, isspace c = true ∨ c = ch '}') (h : Parses attrs p rest r) :
    Parses attrs p (before ++ rest) r := by
  induction before with
  | nil => exact h
  | cons c before ih =>
    have hc := hbefore c (by simp)
    have hzero : c ≠ 0 := by
      rintro rfl
      exact absurd hc (by decide)
    refine Parses.next (ih fun d hd => hbefore d (by simp [hd])) hzero
      ((step_awaitAttr hstate).trans ?_)
    obtain hspace | rfl := hc
    · rw [awaitAttr, if_pos hspace]
      rfl
    · rfl

theorem open_name (hstate : p.state = .awaitAttr)
    (h : Parses attrs { p with
      state := .inAttr, pattr := some [], endp := some (ch '"' :: rest) } rest r) :
    Parses attrs p (ch '"' :: rest) r :=
  h.next (by decide) (step_awaitAttr hstate)

section Name
variable {name acc : List UInt8}

theorem inAttr_char (hstate : p.state = .inAttr) (hattr : p.pattr = some acc) (hc : c ≠ ch '"')
    (hlength : acc.length < attrMax - 1) : step attrs p c (c :: rest) =
      .ok (.next { p with pattr := some (acc ++ [c]) } rest) := by
  have hpush : pushAttr acc c = .ok (acc ++ [c]) := push_ok (by simp only [attrMax] at *; omega)
  rw [step_inAttr hstate, inAttr, hattr]
  simp only [if_neg hc, if_neg (Nat.not_le.mpr hlength), hpush]
  rfl

theorem scan_name (hstate : p.state = .inAttr) (hattr : p.pattr = some acc)
    (hname : ∀ c ∈ name, c ≠ 0 ∧ c ≠ ch '"') (hlength : acc.length + name.length ≤ attrMax - 1)
    (h : Parses attrs { p with pattr := some (acc ++ name) } rest r) :
    Parses attrs p (name ++ rest) r := by
  induction name generalizing p acc with
  | nil =>
    rw [List.append_nil, ← hattr] at h
    exact h
  | cons c name ih =>
    obtain ⟨hc, hquote⟩ := hname c (by simp)
    rw [List.length_cons] at hlength
    have hlater : Parses attrs { p with pattr := some (acc ++ [c]) } (name ++ rest) r := by
      refine ih hstate rfl (fun d hd => hname d (by simp [hd])) (by simp; omega) ?_
      rw [List.append_assoc]
      exact h
    exact hlater.next hc (inAttr_char hstate hattr hquote (by omega))

theorem name_long (hstate : p.state = .inAttr) (hattr : p.pattr = some acc)
    (hname : ∀ c ∈ name, c ≠ 0 ∧ c ≠ ch '"') (hacc : acc.length ≤ attrMax - 1)
    (hlength : attrMax - 1 < acc.length + name.length) :
    Parses attrs p (name ++ rest) ⟨errAttrlen, p.objects, p.endp⟩ := by
  induction name generalizing p acc with
  | nil => simp at hlength; omega
  | cons c name ih =>
    obtain ⟨hc, hquote⟩ := hname c (by simp)
    rw [List.length_cons] at hlength
    by_cases hfull : attrMax - 1 ≤ acc.length
    · refine Parses.give hc ((step_inAttr hstate).trans ?_) rfl rfl
      rw [inAttr, hattr]
      simp only [if_neg hquote, if_pos hfull]
      rfl
    · have hlater := ih (p := { p with pattr := some (acc ++ [c]) }) hstate rfl
        (fun d hd => hname d (by simp [hd])) (by simp; omega) (by simp; omega)
      exact hlater.next hc (inAttr_char hstate hattr hquote (by omega))

theorem inAttr_quote (attrs : List (JsonAttr ι)) (rest : List UInt8) (hstate : p.state = .inAttr) (hattr : p.pattr = some name)
    (hname : ∀ c ∈ name, c ≠ 0 ∧ c ≠ ch '"') (hlength : name.length ≤ attrMax - 1) :
    step attrs p (ch '"') (ch '"' :: rest) = match findAttr attrs name with
      | [] => .ok (.give errBadattr { p with pattr := some (name ++ [0]) })
      | spec :: specs => .ok (.next { p with
          state := .awaitValue
          pattr := some (name ++ [0])
          cursor := spec :: specs
          maxlen := maxlenOf spec p.maxlen
          pval := some [] } rest) := by
  have hpush : pushAttr name 0 = .ok (name ++ [0]) := push_ok (by simp only [attrMax] at *; omega)
  have hclosed : cstring (name ++ [0]) = name := cstring_closed fun h => (hname 0 h).1 rfl
  have hround : inAttr attrs p (ch '"') (ch '"' :: rest) = .ok (named attrs p (name ++ [0]) rest) := by
    rw [inAttr, hattr]
    simp only [hpush, if_true]
    rfl
  rw [step_inAttr hstate, hround, named, hclosed]
  cases findAttr attrs name <;> rfl

end Name

/-! The value. -/

section Value
variable {acc : List UInt8}

theorem scan_colon {colon : List UInt8} (hstate : p.state = .awaitValue)
    (hcolon : ∀ c ∈ colon, isspace c = true ∨ c = ch ':') (h : Parses attrs p rest r) :
    Parses attrs p (colon ++ rest) r := by
  induction colon with
  | nil => exact h
  | cons c colon ih =>
    have hc := hcolon c (by simp)
    have hzero : c ≠ 0 := by
      rintro rfl
      exact absurd hc (by decide)
    refine Parses.next (ih fun d hd => hcolon d (by simp [hd])) hzero
      ((step_awaitValue hstate).trans ?_)
    have hpass : (isspace c || decide (c = ch ':')) = true := by simpa using hc
    rw [awaitValue, if_pos hpass]
    rfl

theorem open_quote (hstate : p.state = .awaitValue)
    (h : Parses attrs { p with valueQuoted := true, state := .inValString, pval := some [] } rest r) :
    Parses attrs p (ch '"' :: rest) r :=
  h.next (by decide) (step_awaitValue hstate)

theorem open_token (hstate : p.state = .awaitValue) (hzero : c ≠ 0) (hspace : isspace c = false)
    (hcolon : c ≠ ch ':') (hbracket : c ≠ ch '[') (hbrace : c ≠ ch '{') (hquote : c ≠ ch '"')
    (h : Parses attrs { p with valueQuoted := false, state := .inValToken, pval := some [c] } rest r) :
    Parses attrs p (c :: rest) r := by
  refine h.next hzero ((step_awaitValue hstate).trans ?_)
  have hstay : ¬((isspace c || decide (c = ch ':')) = true) := by simp [hspace, hcolon]
  rw [awaitValue, if_neg hstay, if_neg hbracket, if_neg hbrace, if_neg hquote, pushVal_ok (by simp)]
  rfl

theorem hexDigits_append {digits : List UInt8} (h : ∀ c ∈ digits, isxdigit c = true) :
    hexDigits digits.length (digits ++ rest) = .ok (digits, rest) := by
  induction digits with
  | nil => rfl
  | cons c digits ih =>
    have hc := h c (by simp)
    change (if isxdigit c then (hexDigits digits.length (digits ++ rest) >>= _) else _) = _
    rw [if_pos hc, ih fun d hd => h d (by simp [hd])]
    rfl

theorem inValString_char {l : UInt8} (hstate : p.state = .inValString) (hval : p.pval = some acc)
    (hback : l ≠ ch '\\') (hquote : l ≠ ch '"') (hroom : ¬tooLong acc p.maxlen = true) :
    step attrs p l (l :: rest) = .ok (.next { p with pval := some (acc ++ [l]) } rest) := by
  have hlength := length_lt_of_not_tooLong hroom
  rw [step_inValString hstate, inValString, hval]
  simp only [if_neg hback, if_neg hquote, if_neg hroom, pushVal_ok (Nat.le_of_lt hlength)]
  rfl

theorem open_escape (hstate : p.state = .inValString) (hval : p.pval = some acc)
    (h : Parses attrs { p with state := .inEscape } rest r) : Parses attrs p (ch '\\' :: rest) r := by
  refine h.next (by decide) ((step_inValString hstate).trans ?_)
  rw [inValString, hval]
  rfl

theorem scan_letter {l : Letter} (hstate : p.state = .inValString) (hval : p.pval = some acc)
    (hvalid : l.Valid) (hroom : ¬tooLong acc p.maxlen = true)
    (h : Parses attrs { p with pval := some (acc ++ [l.byte]) } rest r) :
    Parses attrs p (l.text ++ rest) r := by
  have hlength := length_lt_of_not_tooLong hroom
  have hagain : ({ p with pval := some (acc ++ [l.byte]) } : Parse ι) =
      { p with pval := some (acc ++ [l.byte]), state := .inValString } := by rw [← hstate]
  cases l with
  | plain c =>
    obtain ⟨hzero, hquote, hback⟩ := hvalid
    exact h.next hzero (inValString_char hstate hval hback hquote hroom)
  | escaped c =>
    obtain ⟨hzero, hu⟩ := hvalid
    refine open_escape hstate hval ?_
    rw [hagain] at h
    refine h.next hzero ((step_inEscape rfl).trans ?_)
    rw [inEscape, hval]
    simp only [if_neg hroom, if_neg hu, pushVal_ok (Nat.le_of_lt hlength)]
    rfl
  | coded digits =>
    obtain ⟨hfour, hdigits⟩ := hvalid
    refine open_escape hstate hval ?_
    rw [hagain] at h
    refine h.next (by decide) ((step_inEscape rfl).trans ?_)
    have hrun : hexDigits 4 (digits ++ rest) = .ok (digits, rest) := hfour ▸ hexDigits_append hdigits
    rw [inEscape, hval]
    simp only [if_neg hroom, if_true, List.tail_cons]
    change (hexDigits 4 (digits ++ rest) >>= _) = _
    rw [hrun]
    change (if digits.length ≠ 4 then _ else _) = _
    rw [if_neg (not_not.mpr hfour), pushVal_ok (Nat.le_of_lt hlength)]
    rfl

theorem letter_long {l : Letter} (hstate : p.state = .inValString) (hval : p.pval = some acc)
    (hvalid : l.Valid) (hfull : tooLong acc p.maxlen = true) :
    Parses attrs p (l.text ++ rest) ⟨errStrlong, p.objects, p.endp⟩ := by
  have hescape : ∀ c cs, c ≠ 0 → Parses attrs { p with state := .inEscape } (c :: cs)
      ⟨errStrlong, p.objects, p.endp⟩ := by
    intro c cs hzero
    have hround : inEscape { p with state := .inEscape } c (c :: cs) =
        .ok (.give errStrlong { p with state := .inEscape }) := by
      rw [inEscape, hval]
      simp only [if_pos hfull]
      rfl
    exact Parses.give hzero ((step_inEscape rfl).trans hround) rfl rfl
  cases l with
  | plain c =>
    obtain ⟨hzero, hquote, hback⟩ := hvalid
    refine Parses.give hzero ((step_inValString hstate).trans ?_) rfl rfl
    rw [inValString, hval]
    simp only [if_neg hback, if_neg hquote, if_pos hfull]
    rfl
  | escaped c => exact open_escape hstate hval (hescape c rest hvalid.1)
  | coded digits => exact open_escape hstate hval (hescape (ch 'u') (digits ++ rest) (by decide))

theorem scan_letters {letters : List Letter} (hstate : p.state = .inValString)
    (hval : p.pval = some acc) (hvalid : ∀ l ∈ letters, l.Valid)
    (hroom : letters.length = 0 ∨ (acc.length + letters.length ≤ valMax ∧
      (acc.length + letters.length : Int) ≤ p.maxlen + 1))
    (h : Parses attrs { p with pval := some (acc ++ letters.map Letter.byte) } rest r) :
    Parses attrs p (letters.flatMap Letter.text ++ rest) r := by
  induction letters generalizing p acc with
  | nil =>
    rw [List.map_nil, List.append_nil, ← hval] at h
    exact h
  | cons l letters ih =>
    simp only [List.length_cons] at hroom
    have hfits : ¬tooLong acc p.maxlen = true := not_tooLong.mpr (by omega)
    rw [List.flatMap_cons, List.append_assoc]
    refine scan_letter hstate hval (hvalid l (by simp)) hfits ?_
    refine ih hstate rfl (fun d hd => hvalid d (by simp [hd])) ?_ ?_
    · simp only [List.length_append, List.length_singleton]
      omega
    · simpa using h

theorem letters_long {letters : List Letter} (hstate : p.state = .inValString)
    (hval : p.pval = some acc) (hvalid : ∀ l ∈ letters, l.Valid) (hsome : 0 < letters.length)
    (hlong : valMax < acc.length + letters.length ∨
      p.maxlen + 1 < (acc.length + letters.length : Int)) :
    Parses attrs p (letters.flatMap Letter.text ++ rest) ⟨errStrlong, p.objects, p.endp⟩ := by
  induction letters generalizing p acc with
  | nil => simp at hsome
  | cons l letters ih =>
    rw [List.flatMap_cons, List.append_assoc]
    by_cases hfull : tooLong acc p.maxlen = true
    · exact letter_long hstate hval (hvalid l (by simp)) hfull
    · refine scan_letter hstate hval (hvalid l (by simp)) hfull ?_
      obtain ⟨hbuffer, hattr⟩ := not_tooLong.mp hfull
      simp only [List.length_cons] at hlong
      refine ih (p := { p with pval := some (acc ++ [l.byte]) }) hstate rfl
        (fun d hd => hvalid d (by simp [hd])) (by omega) ?_
      simp only [List.length_append, List.length_singleton]
      omega

theorem close_quote (hstate : p.state = .inValString) (hval : p.pval = some acc)
    (hlength : acc.length ≤ valMax)
    (h : Parses attrs { p with pval := some (acc ++ [0]), state := .postVal } rest r) :
    Parses attrs p (ch '"' :: rest) r := by
  refine h.next (by decide) ((step_inValString hstate).trans ?_)
  have hback : ch '"' ≠ ch '\\' := by decide
  rw [inValString, hval]
  simp only [if_neg hback, if_true, pushVal_ok hlength]
  rfl

theorem inValToken_char (hstate : p.state = .inValToken) (hval : p.pval = some acc)
    (hspace : isspace c = false) (hcomma : c ≠ ch ',') (hbrace : c ≠ ch '}')
    (hroom : acc.length < valMax) : step attrs p c (c :: rest) =
      .ok (.next { p with pval := some (acc ++ [c]) } rest) := by
  have hstay : ¬((isspace c || decide (c = ch ',') || decide (c = ch '}')) = true) := by
    simp [hspace, hcomma, hbrace]
  have hfits : ¬(acc.length > valMax - 1) := by omega
  rw [step_inValToken hstate, inValToken, hval]
  simp only [if_neg hstay, if_neg hfits, pushVal_ok (Nat.le_of_lt hroom)]
  rfl

theorem scan_token {token : List UInt8} (hstate : p.state = .inValToken) (hval : p.pval = some acc)
    (htoken : ∀ c ∈ token, c ≠ 0 ∧ isspace c = false ∧ c ≠ ch ',' ∧ c ≠ ch '}')
    (hroom : acc.length + token.length ≤ valMax)
    (h : Parses attrs { p with pval := some (acc ++ token) } rest r) :
    Parses attrs p (token ++ rest) r := by
  induction token generalizing p acc with
  | nil =>
    rw [List.append_nil, ← hval] at h
    exact h
  | cons c token ih =>
    obtain ⟨hzero, hspace, hcomma, hbrace⟩ := htoken c (by simp)
    rw [List.length_cons] at hroom
    have hlater : Parses attrs { p with pval := some (acc ++ [c]) } (token ++ rest) r := by
      refine ih hstate rfl (fun d hd => htoken d (by simp [hd])) (by simp; omega) ?_
      rw [List.append_assoc]
      exact h
    exact hlater.next hzero (inValToken_char hstate hval hspace hcomma hbrace (by omega))

theorem token_long {token : List UInt8} (hstate : p.state = .inValToken) (hval : p.pval = some acc)
    (htoken : ∀ c ∈ token, c ≠ 0 ∧ isspace c = false ∧ c ≠ ch ',' ∧ c ≠ ch '}')
    (hacc : acc.length ≤ valMax) (hlong : valMax < acc.length + token.length) :
    Parses attrs p (token ++ rest) ⟨errToklong, p.objects, p.endp⟩ := by
  induction token generalizing p acc with
  | nil => simp at hlong; omega
  | cons c token ih =>
    obtain ⟨hzero, hspace, hcomma, hbrace⟩ := htoken c (by simp)
    rw [List.length_cons] at hlong
    by_cases hfull : acc.length > valMax - 1
    · have hstay : ¬((isspace c || decide (c = ch ',') || decide (c = ch '}')) = true) := by
        simp [hspace, hcomma, hbrace]
      refine Parses.give hzero ((step_inValToken hstate).trans ?_) rfl rfl
      rw [inValToken, hval]
      simp only [if_neg hstay, if_pos hfull]
      rfl
    · have hroom : acc.length < valMax := by simp only [valMax] at *; omega
      have hlater := ih (p := { p with pval := some (acc ++ [c]) }) hstate rfl
        (fun d hd => htoken d (by simp [hd])) (by simp; omega) (by simp; omega)
      exact hlater.next hzero (inValToken_char hstate hval hspace hcomma hbrace hroom)

/-- A separator is left for the next state, white space is not. -/
theorem end_token {after : List UInt8} {sep : UInt8} (hstate : p.state = .inValToken)
    (hval : p.pval = some acc) (hacc : acc.length ≤ valMax) (hafter : ∀ c ∈ after, isspace c = true)
    (hsep : sep = ch ',' ∨ sep = ch '}')
    (h : Parses attrs { p with state := .postVal } (after.tail ++ sep :: rest) r) :
    Parses attrs p (after ++ sep :: rest) r := by
  cases after with
  | nil =>
    have hzero : sep ≠ 0 := by obtain rfl | rfl := hsep <;> decide
    refine h.next hzero ((step_inValToken hstate).trans ?_)
    have hend : (isspace sep || decide (sep = ch ',') || decide (sep = ch '}')) = true := by
      obtain rfl | rfl := hsep <;> rfl
    have hagain : sep = ch '}' ∨ sep = ch ',' := hsep.symm
    rw [inValToken, hval]
    simp only [if_pos hend, pushVal_ok hacc]
    simp only [List.nil_append, List.tail_nil]
    rw [if_pos (by simpa using hagain)]
    rfl
  | cons c after =>
    have hc := hafter c (by simp)
    have hzero : c ≠ 0 := by rintro rfl; exact absurd hc (by decide)
    have hcomma : c ≠ ch ',' := by rintro rfl; exact absurd hc (by decide)
    have hbrace : c ≠ ch '}' := by rintro rfl; exact absurd hc (by decide)
    refine h.next hzero ((step_inValToken hstate).trans ?_)
    rw [inValToken, hval]
    simp only [hc, Bool.true_or, if_true, pushVal_ok hacc]
    rw [if_neg (by simp [hcomma, hbrace])]
    rfl

theorem scan_value {value : Literal} {after : List UInt8} {sep : UInt8}
    (hstate : p.state = .awaitValue) (hvalid : value.Valid) (hfits : value.overlong p.maxlen = none)
    (hafter : ∀ c ∈ after, isspace c = true) (hsep : sep = ch ',' ∨ sep = ch '}')
    (h : ∀ buffer spaces, cstring buffer = value.value → (∀ c ∈ spaces, isspace c = true) →
      Parses attrs { p with
        state := .postVal, valueQuoted := value.isQuoted, pval := some buffer }
        (spaces ++ sep :: rest) r) :
    Parses attrs p (value.text ++ (after ++ sep :: rest)) r := by
  cases value with
  | quoted letters =>
    simp only [Literal.overlong, ite_eq_right_iff, reduceCtorEq, imp_false, not_and_or] at hfits
    have hroom : letters.length = 0 ∨ (letters.length ≤ valMax ∧
        (letters.length : Int) ≤ p.maxlen + 1) := by omega
    simp only [Literal.text, List.cons_append, List.append_assoc, List.nil_append]
    refine open_quote hstate (scan_letters rfl rfl hvalid (by simpa using hroom) ?_)
    refine close_quote rfl rfl (by simp; omega) (h _ after ?_ hafter)
    rw [List.nil_append, cstring_terminated, Literal.value]
  | token first token =>
    obtain ⟨⟨hzero, hspace, hcolon, hbracket, hbrace, hquote⟩, htoken⟩ := hvalid
    simp only [Literal.overlong, ite_eq_right_iff, reduceCtorEq, imp_false] at hfits
    simp only [Literal.text, List.cons_append]
    refine open_token hstate hzero hspace hcolon hbracket hbrace hquote ?_
    refine scan_token rfl rfl htoken (by simp; omega) ?_
    refine end_token rfl rfl (by simp; omega) hafter hsep (h _ after.tail ?_ ?_)
    · have hmem : 0 ∉ first :: token := by
        intro hmem
        obtain h0 | h0 := List.mem_cons.mp hmem
        · exact hzero h0.symm
        · exact (htoken 0 h0).1 rfl
      exact cstring_eq_self hmem
    · exact fun c hc => hafter c (List.mem_of_mem_tail hc)

theorem value_long {value : Literal} {status : Nat} (hstate : p.state = .awaitValue)
    (hvalid : value.Valid) (hlong : value.overlong p.maxlen = some status) :
    Parses attrs p (value.text ++ rest) ⟨status, p.objects, p.endp⟩ := by
  cases value with
  | quoted letters =>
    simp only [Literal.overlong, Option.ite_none_right_eq_some, Option.some.injEq] at hlong
    obtain ⟨⟨hsome, hlong⟩, rfl⟩ := hlong
    simp only [Literal.text, List.cons_append, List.append_assoc]
    exact open_quote hstate (letters_long rfl rfl hvalid hsome (by simpa using hlong))
  | token first token =>
    obtain ⟨⟨hzero, hspace, hcolon, hbracket, hbrace, hquote⟩, htoken⟩ := hvalid
    simp only [Literal.overlong, Option.ite_none_right_eq_some, Option.some.injEq] at hlong
    obtain ⟨hlong, rfl⟩ := hlong
    simp only [Literal.text, List.cons_append]
    exact open_token hstate hzero hspace hcolon hbracket hbrace hquote
      (token_long rfl rfl htoken (by simp [valMax]) (by simp; omega))

end Value

/-! The end of a member. -/

section Member
variable {attrbuf buffer spaces : List UInt8} {sep : UInt8} {spec : JsonAttr ι}
  {specs : List (JsonAttr ι)}

theorem head_nonzero (rest : List UInt8) (hspaces : ∀ c ∈ spaces, isspace c = true) (hsep : sep = ch ',' ∨ sep = ch '}') :
    ∃ c cs, spaces ++ sep :: rest = c :: cs ∧ c ≠ 0 := by
  cases spaces with
  | nil => exact ⟨sep, rest, rfl, by obtain rfl | rfl := hsep <;> decide⟩
  | cons c spaces =>
    refine ⟨c, spaces ++ sep :: rest, rfl, ?_⟩
    rintro rfl
    exact absurd (hspaces 0 (by simp)) (by decide)

def conclude (p : Parse ι) (cursor : List (JsonAttr ι)) (cp : List UInt8) :
    Except Nat (Objects ι) → Except Halt (Move ι)
  | .error status => .ok (.give status { p with cursor := cursor })
  | .ok objects => postElement { p with cursor := cursor, objects := objects } cp

theorem postVal_at (rest : List UInt8) (hattr : p.pattr = some attrbuf) (hval : p.pval = some buffer)
    (hseek : seek p.valueQuoted (cstring attrbuf) (cstring buffer) p.cursor = spec :: specs)
    (hspaces : ∀ c ∈ spaces, isspace c = true) (hsep : sep = ch ',' ∨ sep = ch '}')
    {v : Except Nat (Objects ι)}
    (haccept : accept p.valueQuoted p.objects spec (cstring buffer) = .ok v) :
    postVal p (spaces ++ sep :: rest) = conclude p (spec :: specs) (sep :: rest) v := by
  have hdrop : (spaces ++ sep :: rest).dropWhile isspace = sep :: rest := by
    refine dropWhile_space hspaces ?_
    rintro c ⟨rfl⟩
    obtain rfl | rfl := hsep <;> rfl
  have hskip : skipSpace (spaces ++ sep :: rest) = .ok (sep :: rest) := by
    simp only [skipSpace, hdrop]
    rfl
  obtain ⟨state, pattr, pval, quoted, cursor, maxlen, objects, endp⟩ := p
  dsimp only at *
  subst hattr hval
  rw [postVal, hskip]
  change judge _ attrbuf buffer (sep :: rest) = _
  rw [judge, hseek]
  dsimp only
  rw [haccept]
  cases v <;> rfl

theorem postVal_fails (hstate : p.state = .postVal) (hattr : p.pattr = some attrbuf)
    (hval : p.pval = some buffer)
    (hseek : seek p.valueQuoted (cstring attrbuf) (cstring buffer) p.cursor = spec :: specs)
    (hspaces : ∀ c ∈ spaces, isspace c = true) (hsep : sep = ch ',' ∨ sep = ch '}') {status : Nat}
    (haccept : accept p.valueQuoted p.objects spec (cstring buffer) = .ok (.error status)) :
    Parses attrs p (spaces ++ sep :: rest) ⟨status, p.objects, p.endp⟩ := by
  obtain ⟨c, cs, hcons, hzero⟩ := head_nonzero rest hspaces hsep
  have hrun := postVal_at rest hattr hval hseek hspaces hsep haccept
  rw [hcons] at hrun ⊢
  exact Parses.give hzero ((step_postVal hstate).trans hrun) rfl rfl

theorem postVal_goes_on (hstate : p.state = .postVal) (hattr : p.pattr = some attrbuf)
    (hval : p.pval = some buffer)
    (hseek : seek p.valueQuoted (cstring attrbuf) (cstring buffer) p.cursor = spec :: specs)
    (hspaces : ∀ c ∈ spaces, isspace c = true) {objects : Objects ι}
    (haccept : accept p.valueQuoted p.objects spec (cstring buffer) = .ok (.ok objects))
    (h : Parses attrs { p with cursor := spec :: specs, objects := objects, state := .awaitAttr }
      rest r) : Parses attrs p (spaces ++ ch ',' :: rest) r := by
  obtain ⟨c, cs, hcons, hzero⟩ := head_nonzero rest hspaces (.inl (rfl : ch ',' = ch ','))
  have hrun := postVal_at rest hattr hval hseek hspaces (.inl rfl) haccept
  rw [hcons] at hrun ⊢
  exact h.next hzero ((step_postVal hstate).trans hrun)

theorem postVal_closes (hstate : p.state = .postVal) (hattr : p.pattr = some attrbuf)
    (hval : p.pval = some buffer)
    (hseek : seek p.valueQuoted (cstring attrbuf) (cstring buffer) p.cursor = spec :: specs)
    (hspaces : ∀ c ∈ spaces, isspace c = true) {objects : Objects ι}
    (haccept : accept p.valueQuoted p.objects spec (cstring buffer) = .ok (.ok objects))
    (hnul : 0 ∈ rest) : Parses attrs p (spaces ++ ch '}' :: rest)
      ⟨0, objects, some (rest.dropWhile isspace)⟩ := by
  obtain ⟨c, cs, hcons, hzero⟩ := head_nonzero rest hspaces (.inr (rfl : ch '}' = ch '}'))
  have hrun := postVal_at rest hattr hval hseek hspaces (.inr rfl) haccept
  rw [hcons] at hrun ⊢
  obtain ⟨d, ds, hdrop, hskip, -, -⟩ := skipSpace_ok hnul
  refine Parses.good hzero ((step_postVal hstate).trans hrun) ?_
  rw [goodParse, List.tail_cons, hskip, hdrop]
  rfl

/-- A parse that stands before a member and has seen the members before it. -/
structure Before (s : Seen ι) (p : Parse ι) : Prop where
  state : p.state = .awaitAttr
  objects : p.objects = s.objects
  maxlen : p.maxlen = s.maxlen

theorem named_append (m : Member) (rest : List UInt8) : m.named ++ rest =
    ch '"' :: (m.name ++ ch '"' :: (m.colon ++ (m.value.text ++ (m.after ++ rest)))) := by
  simp only [Member.named, List.cons_append, List.append_assoc]

theorem name_too_long {m : Member} {s : Seen ι} (hp : Before s p) (hm : m.Valid)
    (hlength : attrMax - 1 < m.name.length) :
    Parses attrs p (m.text ++ rest) ⟨errAttrlen, s.objects, some (m.named ++ rest)⟩ := by
  rw [Member.text, List.append_assoc, named_append, ← hp.objects]
  refine scan_before hp.state hm.before (open_name hp.state ?_)
  exact name_long rfl rfl hm.name (by simp) (by simpa using hlength)

theorem scan_to_quote {m : Member} {s : Seen ι} (hp : Before s p) (hm : m.Valid)
    (hlength : m.name.length ≤ attrMax - 1)
    (h : ∀ q : Parse ι, q.state = .inAttr → q.pattr = some m.name → q.maxlen = s.maxlen →
      q.objects = s.objects → q.endp = some (m.named ++ rest) →
      Parses attrs q (ch '"' :: (m.colon ++ (m.value.text ++ (m.after ++ rest)))) r) :
    Parses attrs p (m.text ++ rest) r := by
  rw [Member.text, List.append_assoc]
  refine scan_before hp.state hm.before ?_
  rw [named_append] at h ⊢
  refine open_name hp.state (scan_name rfl rfl hm.name (by simpa using hlength) ?_)
  exact h _ rfl (by simp) hp.maxlen hp.objects rfl

theorem name_unknown {m : Member} {s : Seen ι} (hp : Before s p) (hm : m.Valid)
    (hlength : m.name.length ≤ attrMax - 1) (hfind : findAttr attrs m.name = []) :
    Parses attrs p (m.text ++ rest) ⟨errBadattr, s.objects, some (m.named ++ rest)⟩ := by
  refine scan_to_quote hp hm hlength ?_
  intro q hstate hattr _ hobjects hendp
  have hround := inAttr_quote attrs (m.colon ++ (m.value.text ++ (m.after ++ rest))) hstate hattr hm.name hlength
  rw [hfind] at hround
  rw [← hobjects, ← hendp]
  exact Parses.give (by decide) hround rfl rfl

theorem scan_named {m : Member} {s : Seen ι} (hp : Before s p) (hm : m.Valid)
    (hlength : m.name.length ≤ attrMax - 1) (hfind : findAttr attrs m.name = spec :: specs)
    (h : ∀ q : Parse ι, q.state = .awaitValue → q.pattr = some (m.name ++ [0]) →
      q.cursor = spec :: specs → q.maxlen = maxlenOf spec s.maxlen → q.objects = s.objects →
      q.endp = some (m.named ++ rest) → Parses attrs q (m.value.text ++ (m.after ++ rest)) r) :
    Parses attrs p (m.text ++ rest) r := by
  refine scan_to_quote hp hm hlength ?_
  intro q hstate hattr hmaxlen hobjects hendp
  have hround := inAttr_quote attrs (m.colon ++ (m.value.text ++ (m.after ++ rest))) hstate hattr hm.name hlength
  rw [hfind] at hround
  refine Parses.next ?_ (by decide) hround
  refine scan_colon rfl hm.colon (h _ rfl rfl rfl ?_ hobjects hendp)
  rw [← hmaxlen]

end Member

end UdpSm.Mjson
