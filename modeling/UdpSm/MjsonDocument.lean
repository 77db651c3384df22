import UdpSm.MjsonScan

/-! A text of members is read as its members mean: the stores of the members before the first
that fails, the status of that one, and the place of its name. -/
namespace UdpSm.Mjson
open Lib
variable {ι : Type} [DecidableEq ι] {attrs : List (JsonAttr ι)} {p : Parse ι} {s s' : Seen ι}
  {m : Member} {sep : UInt8} {rest : List UInt8} {r : Result ι}

/-- What a member comes to, by the place where its reading ends. -/
theorem readMember_cases {v : Except Nat (Seen ι)} (h : readMember attrs s m = .ok v) :
    (attrMax - 1 < m.name.length ∧ v = .error errAttrlen) ∨
    (m.name.length ≤ attrMax - 1 ∧ findAttr attrs m.name = [] ∧ v = .error errBadattr) ∨
    ∃ spec specs, m.name.length ≤ attrMax - 1 ∧ findAttr attrs m.name = spec :: specs ∧
      ((∃ status, m.value.overlong (maxlenOf spec s.maxlen) = some status ∧ v = .error status) ∨
      (m.value.overlong (maxlenOf spec s.maxlen) = none ∧ ∃ found others w,
        seek m.value.isQuoted m.name m.value.value (spec :: specs) = found :: others ∧
        accept m.value.isQuoted s.objects found m.value.value = .ok w ∧
        v = w.map fun objects => ⟨objects, maxlenOf spec s.maxlen⟩)) := by
  unfold readMember at h
  split at h
  case isTrue hlong => exact .inl ⟨hlong, (Except.ok.inj h).symm⟩
  case isFalse hshort =>
    refine .inr ?_
    have hlength := Nat.le_of_not_lt hshort
    cases hfind : findAttr attrs m.name with
    | nil =>
      rw [hfind] at h
      exact .inl ⟨hlength, rfl, (Except.ok.inj h).symm⟩
    | cons spec specs =>
      rw [hfind] at h
      refine .inr ⟨spec, specs, hlength, rfl, ?_⟩
      dsimp only at h
      cases hlong : m.value.overlong (maxlenOf spec s.maxlen) with
      | some status =>
        rw [hlong] at h
        exact .inl ⟨status, rfl, (Except.ok.inj h).symm⟩
      | none =>
        rw [hlong] at h
        dsimp only at h
        cases hseek : seek m.value.isQuoted m.name m.value.value (spec :: specs) with
        | nil => rw [hseek] at h; cases h
        | cons found others =>
          rw [hseek] at h
          dsimp only at h
          cases haccept : accept m.value.isQuoted s.objects found m.value.value with
          | error e => rw [haccept] at h; cases h
          | ok w =>
            rw [haccept] at h
            refine .inr ⟨rfl, found, others, w, rfl, haccept, ?_⟩
            cases w <;> exact (Except.ok.inj h).symm

theorem readMember_stores {spec found : JsonAttr ι} {specs others : List (JsonAttr ι)}
    {objects : Objects ι} (hlength : m.name.length ≤ attrMax - 1)
    (hfind : findAttr attrs m.name = spec :: specs)
    (hfits : m.value.overlong (maxlenOf spec s.maxlen) = none)
    (hseek : seek m.value.isQuoted m.name m.value.value (spec :: specs) = found :: others)
    (haccept : accept m.value.isQuoted s.objects found m.value.value = .ok (.ok objects)) :
    readMember attrs s m = .ok (.ok ⟨objects, maxlenOf spec s.maxlen⟩) := by
  rw [readMember, if_neg (Nat.not_lt.mpr hlength), hfind]
  dsimp only
  rw [hfits]
  dsimp only
  rw [hseek]
  dsimp only
  rw [haccept]
  rfl

theorem readMember_judged (s : Seen ι) (m : Member) (hroom : ∀ spec ∈ attrs, Room s.objects spec) :
    ∃ v, readMember attrs s m = .ok v ∧ Judged attrs s.objects (v.map Seen.objects) := by
  unfold readMember
  split_ifs
  · exact ⟨_, rfl, (by decide : errAttrlen ∈ failures)⟩
  · cases hfind : findAttr attrs m.name with
    | nil => exact ⟨_, rfl, (by decide : errBadattr ∈ failures)⟩
    | cons spec specs =>
      dsimp only
      cases hlong : m.value.overlong (maxlenOf spec s.maxlen) with
      | some status =>
        refine ⟨_, rfl, ?_⟩
        have hstatus : status = errStrlong ∨ status = errToklong := by
          cases hvalue : m.value with
          | quoted letters =>
            rw [hvalue, Literal.overlong, Option.ite_none_right_eq_some] at hlong
            exact .inl (Option.some.inj hlong.2).symm
          | token first rest =>
            rw [hvalue, Literal.overlong, Option.ite_none_right_eq_some] at hlong
            exact .inr (Option.some.inj hlong.2).symm
        obtain rfl | rfl := hstatus
        · exact (by decide : errStrlong ∈ failures)
        · exact (by decide : errToklong ∈ failures)
      | none =>
        dsimp only
        obtain ⟨found, others, hseek, hsuffix⟩ := seek_suffix m.value.isQuoted m.name m.value.value
          (List.cons_ne_nil spec specs)
        have hmem : found ∈ attrs := by
          have hin : found ∈ findAttr attrs m.name := hfind ▸ hsuffix.subset (List.mem_cons_self)
          exact (List.dropWhile_suffix _).subset hin
        obtain ⟨v, haccept, hjudged⟩ := accept_judged hmem (hroom found hmem) m.value.isQuoted
          m.value.value
        rw [hseek]
        dsimp only
        rw [haccept]
        cases v with
        | error status => exact ⟨_, rfl, hjudged⟩
        | ok objects => exact ⟨_, rfl, hjudged⟩

theorem scan_member {spec : JsonAttr ι} {specs : List (JsonAttr ι)} (hp : Before s p) (hm : m.Valid)
    (hlength : m.name.length ≤ attrMax - 1) (hfind : findAttr attrs m.name = spec :: specs)
    (hfits : m.value.overlong (maxlenOf spec s.maxlen) = none) (hsep : sep = ch ',' ∨ sep = ch '}')
    (h : ∀ (q : Parse ι) (attrbuf buffer spaces : List UInt8), q.state = .postVal →
      q.pattr = some attrbuf → q.pval = some buffer → cstring attrbuf = m.name →
      cstring buffer = m.value.value → q.valueQuoted = m.value.isQuoted → q.cursor = spec :: specs →
      q.maxlen = maxlenOf spec s.maxlen → q.objects = s.objects →
      q.endp = some (m.named ++ sep :: rest) → (∀ c ∈ spaces, isspace c = true) →
      Parses attrs q (spaces ++ sep :: rest) r) : Parses attrs p (m.text ++ sep :: rest) r := by
  refine scan_named hp hm hlength hfind ?_
  intro q hstate hattr hcursor hmaxlen hobjects hendp
  rw [← hmaxlen] at hfits
  refine scan_value hstate hm.value hfits hm.after hsep ?_
  intro buffer spaces hbuffer hspaces
  have hclosed : cstring (m.name ++ [0]) = m.name := cstring_closed fun h0 => (hm.name 0 h0).1 rfl
  exact h _ _ _ _ rfl hattr rfl hclosed hbuffer rfl hcursor hmaxlen hobjects hendp hspaces

theorem member_fails {status : Nat} (hp : Before s p) (hm : m.Valid) (hsep : sep = ch ',' ∨ sep = ch '}')
    (h : readMember attrs s m = .ok (.error status)) : Parses attrs p (m.text ++ sep :: rest)
      ⟨status, s.objects, some (m.named ++ sep :: rest)⟩ := by
  obtain ⟨hlong, hv⟩ | ⟨hlength, hfind, hv⟩ | ⟨spec, specs, hlength, hfind, hvalue⟩ := readMember_cases h
  · obtain rfl := Except.error.inj hv
    exact name_too_long hp hm hlong
  · obtain rfl := Except.error.inj hv
    exact name_unknown hp hm hlength hfind
  obtain ⟨status', hlong, hv⟩ | ⟨hfits, found, others, w, hseek, haccept, hv⟩ := hvalue
  · obtain rfl := Except.error.inj hv
    refine scan_named hp hm hlength hfind ?_
    intro q hstate _ _ hmaxlen hobjects hendp
    rw [← hmaxlen] at hlong
    rw [← hobjects, ← hendp]
    exact value_long hstate hm.value hlong
  · obtain rfl : w = .error status := by
      cases w with
      | error e => exact congrArg _ (Except.error.inj hv).symm
      | ok _ => cases hv
    refine scan_member hp hm hlength hfind hfits hsep ?_
    intro q attrbuf buffer spaces hstate hattr hval hname hbuffer hquoted hcursor _ hobjects hendp hspaces
    rw [← hname, ← hbuffer, ← hquoted, ← hcursor] at hseek
    rw [← hbuffer, ← hquoted, ← hobjects] at haccept
    rw [← hobjects, ← hendp]
    exact postVal_fails hstate hattr hval hseek hspaces hsep haccept

theorem member_stored (rest : List UInt8) (hp : Before s p) (hm : m.Valid) (h : readMember attrs s m = .ok (.ok s')) :
    (∀ r, (∀ q : Parse ι, Before s' q → Parses attrs q rest r) →
      Parses attrs p (m.text ++ ch ',' :: rest) r) ∧
    (0 ∈ rest → Parses attrs p (m.text ++ ch '}' :: rest)
      ⟨0, s'.objects, some (rest.dropWhile isspace)⟩) := by
  obtain ⟨_, hv⟩ | ⟨_, _, hv⟩ | ⟨spec, specs, hlength, hfind, ⟨_, _, hv⟩ |
    ⟨hfits, found, others, w, hseek, haccept, hv⟩⟩ := readMember_cases h
  · cases hv
  · cases hv
  · cases hv
  obtain ⟨objects, rfl, rfl⟩ : ∃ objects, w = .ok objects ∧ s' = ⟨objects, maxlenOf spec s.maxlen⟩ := by
    cases w with
    | error _ => cases hv
    | ok objects => exact ⟨objects, rfl, Except.ok.inj hv⟩
  refine ⟨fun r hrest => ?_, fun hnul => ?_⟩
  · refine scan_member hp hm hlength hfind hfits (.inl rfl) ?_
    intro q attrbuf buffer spaces hstate hattr hval hname hbuffer hquoted hcursor hmaxlen hobjects _ hspaces
    rw [← hname, ← hbuffer, ← hquoted, ← hcursor] at hseek
    rw [← hbuffer, ← hquoted, ← hobjects] at haccept
    exact postVal_goes_on hstate hattr hval hseek hspaces haccept (hrest _ ⟨rfl, rfl, hmaxlen⟩)
  · refine scan_member hp hm hlength hfind hfits (.inr rfl) ?_
    intro q attrbuf buffer spaces hstate hattr hval hname hbuffer hquoted hcursor _ hobjects _ hspaces
    rw [← hname, ← hbuffer, ← hquoted, ← hcursor] at hseek
    rw [← hbuffer, ← hquoted, ← hobjects] at haccept
    exact postVal_closes hstate hattr hval hseek hspaces haccept hnul

/-- Where the end pointer is left: behind the white space after the object, or at the name of the
member that failed. -/
def endOf (left : List Member) (tail : List UInt8) : List UInt8 :=
  match left with
  | [] => tail.dropWhile isspace
  | m :: ms => (render (m :: ms) tail).drop m.before.length

theorem readMembers_judged (s : Seen ι) (ms : List Member) (hroom : ∀ spec ∈ attrs, Room s.objects spec) :
    ∃ status objects left, readMembers attrs s ms = .ok (status, objects, left) ∧
      Kept attrs s.objects objects := by
  induction ms generalizing s with
  | nil => exact ⟨_, _, _, rfl, Kept.refl attrs _⟩
  | cons m ms ih =>
    obtain ⟨v, hread, hjudged⟩ := readMember_judged s m hroom
    unfold readMembers
    rw [hread]
    cases v with
    | error status => exact ⟨_, _, _, rfl, Kept.refl attrs _⟩
    | ok s' =>
      have hkept : Kept attrs s.objects s'.objects := hjudged
      obtain ⟨status, objects, left, hrest, hkept'⟩ := ih s' fun spec hs => (hroom spec hs).kept hkept
      exact ⟨status, objects, left, hrest, hkept.trans hkept'⟩

theorem render_one (m : Member) (tail : List UInt8) : render [m] tail = m.text ++ ch '}' :: tail := rfl

theorem render_cons (m m' : Member) (ms : List Member) (tail : List UInt8) :
    render (m :: m' :: ms) tail = m.text ++ ch ',' :: render (m' :: ms) tail := rfl

theorem mem_render {b : UInt8} {tail : List UInt8} (h : b ∈ tail) (ms : List Member) :
    b ∈ render ms tail := by
  induction ms with
  | nil => exact h
  | cons m ms ih =>
    cases ms with
    | nil => simp [render_one, h]
    | cons m' ms => simp [render_cons, ih]

theorem render_append (ms : List Member) (tail rest : List UInt8) :
    render ms tail ++ rest = render ms (tail ++ rest) := by
  induction ms with
  | nil => rfl
  | cons m ms ih =>
    cases ms with
    | nil => simp [render_one]
    | cons m' ms => simp [render_cons, ih]

theorem endOf_failed (m : Member) (rest : List UInt8) :
    (m.text ++ rest).drop m.before.length = m.named ++ rest := by
  rw [Member.text, List.append_assoc, List.drop_left]

theorem members_parse {ms left : List Member} {tail : List UInt8} {status : Nat}
    {objects : Objects ι} (hms : ms ≠ []) (hvalid : ∀ m ∈ ms, m.Valid) (hnul : 0 ∈ tail)
    (hp : Before s p) (h : readMembers attrs s ms = .ok (status, objects, left)) :
    Parses attrs p (render ms tail) ⟨status, objects, some (endOf left tail)⟩ := by
  induction ms generalizing s p with
  | nil => exact absurd rfl hms
  | cons m ms ih =>
    have hm := hvalid m (by simp)
    unfold readMembers at h
    cases hread : readMember attrs s m with
    | error e => rw [hread] at h; cases h
    | ok v =>
      rw [hread] at h
      cases v with
      | error st =>
        obtain ⟨rfl, rfl, rfl⟩ : st = status ∧ s.objects = objects ∧ m :: ms = left := by
          simpa using Except.ok.inj h
        cases ms with
        | nil =>
          rw [endOf, render_one, endOf_failed]
          exact member_fails hp hm (.inr rfl) hread
        | cons m' ms =>
          rw [endOf, render_cons, endOf_failed]
          exact member_fails hp hm (.inl rfl) hread
      | ok s' =>
        change readMembers attrs s' ms = _ at h
        cases ms with
        | nil =>
          obtain ⟨rfl, rfl, rfl⟩ : 0 = status ∧ s'.objects = objects ∧ [] = left := by
            simpa using Except.ok.inj h
          exact (member_stored tail hp hm hread).2 hnul
        | cons m' ms =>
          rw [render_cons]
          refine (member_stored (render (m' :: ms) tail) hp hm hread).1 _ fun q hq => ?_
          exact ih (by simp) (fun d hd => hvalid d (by simp [hd])) hq h

theorem opening_members {o : Objects ι} {space : List UInt8} {ms : List Member} {tail : List UInt8}
    (hroom : ∀ spec ∈ attrs, Room o spec) (hspace : ∀ c ∈ space, isspace c = true) (hms : ms ≠ [])
    (hvalid : ∀ m ∈ ms, m.Valid) (hnul : 0 ∈ tail) :
    ∃ o' status objects left, stuffDefaults attrs o = .ok o' ∧
      readMembers attrs ⟨o', 0⟩ ms = .ok (status, objects, left) ∧
      loop attrs (2 * (space ++ ch '{' :: render ms tail).length + 1) (opening o')
        (space ++ ch '{' :: render ms tail) = .ok ⟨status, objects, some (endOf left tail)⟩ := by
  have hnul' : 0 ∈ space ++ ch '{' :: render ms tail := by
    simp [mem_render hnul ms]
  obtain ⟨o', r, hdefaults, hrun, -⟩ := opening_safe hnul' hroom
  obtain ⟨o'', hsame, hkept⟩ := stuffDefaults_kept (fun _ hs => hs) hroom
  obtain rfl : o' = o'' := Except.ok.inj (hdefaults.symm.trans hsame)
  obtain ⟨status, objects, left, hread, -⟩ := readMembers_judged ⟨o', 0⟩ ms
    fun spec hs => (hroom spec hs).kept hkept
  have hparse : Parses attrs (opening o') (space ++ ch '{' :: render ms tail)
      ⟨status, objects, some (endOf left tail)⟩ :=
    scan_start rfl hspace (members_parse hms hvalid hnul ⟨rfl, rfl, rfl⟩ hread)
  refine ⟨o', status, objects, left, hdefaults, hread, ?_⟩
  rw [hrun, Parses.unique hparse ⟨_, hrun⟩]

/-- The text of an object is read as its members mean, whatever follows it. -/
theorem jsonReadObject_members (attrs : List (JsonAttr ι)) (o : Objects ι) (space : List UInt8)
    (ms : List Member) (tail : List UInt8) (hroom : ∀ spec ∈ attrs, Room o spec)
    (hspace : ∀ c ∈ space, isspace c = true) (hms : ms ≠ []) (hvalid : ∀ m ∈ ms, m.Valid)
    (hnul : 0 ∈ tail) : ∃ o' status objects left, stuffDefaults attrs o = .ok o' ∧
      readMembers attrs ⟨o', 0⟩ ms = .ok (status, objects, left) ∧
      jsonReadObject (space ++ ch '{' :: render ms tail) attrs o =
        .ok ⟨status, objects, some (endOf left tail)⟩ := by
  obtain ⟨o', status, objects, left, hdefaults, hread, hrun⟩ :=
    opening_members hroom hspace hms hvalid hnul
  exact ⟨o', status, objects, left, hdefaults, hread, (jsonReadObject_eq hdefaults).trans hrun⟩

theorem jsonReadObject_members_unknown :
    ∃ r, jsonReadObject (ch '{' :: render [⟨[32], ascii "n", [58], .token 55 [], []⟩,
        ⟨[], ascii "x", [58, 32], .quoted [.plain 55], [10]⟩] [10, 0])
      [(⟨ascii "n", .integer, (), 0, [], 0, none, false⟩ : JsonAttr Unit)] (fun _ => [9, 9, 9, 9]) = .ok r ∧
      r.status = errBadattr ∧ r.objects () = [7, 0, 0, 0] ∧
      r.endp = some (ascii "\"x\": \"7\"\n\x7d\n" ++ [0]) := by
  obtain ⟨o', status, objects, left, hdefaults, hread, hrun⟩ := jsonReadObject_members
    [(⟨ascii "n", .integer, (), 0, [], 0, none, false⟩ : JsonAttr Unit)] (fun _ => [9, 9, 9, 9]) []
    [⟨[32], ascii "n", [58], .token 55 [], []⟩, ⟨[], ascii "x", [58, 32], .quoted [.plain 55], [10]⟩]
    [10, 0] (by
      intro spec hs
      rw [List.mem_singleton.mp hs]
      exact ⟨by decide, fun h => by cases h⟩) (by simp) (by simp) (by
      intro m hm
      obtain rfl | rfl := List.mem_pair.mp hm
      · exact ⟨forall_of_all (by decide), forall_of_all (by decide), forall_of_all (by decide),
          ⟨by decide, by simp⟩, by simp⟩
      · exact ⟨by simp, forall_of_all (by decide), forall_of_all (by decide), by
          intro l hl
          rw [List.mem_singleton.mp hl]
          exact (by decide : (55 : UInt8) ≠ 0 ∧ (55 : UInt8) ≠ ch '"' ∧ (55 : UInt8) ≠ ch '\\'),
          forall_of_all (by decide)⟩)
    (by decide)
  have hvalue : (jsonReadObject (ch '{' :: render [⟨[32], ascii "n", [58], .token 55 [], []⟩,
        ⟨[], ascii "x", [58, 32], .quoted [.plain 55], [10]⟩] [10, 0])
      [(⟨ascii "n", .integer, (), 0, [], 0, none, false⟩ : JsonAttr Unit)] (fun _ => [9, 9, 9, 9])).toOption.map
      (fun r => (r.status, r.objects (), r.endp)) = some (errBadattr, [7, 0, 0, 0],
        some (ascii "\"x\": \"7\"\n\x7d\n" ++ [0])) := by decide +kernel
  have hsame := (congrArg (fun r => r.toOption.map fun r => (r.status, r.objects (), r.endp)) hrun).symm.trans
    hvalue
  obtain ⟨rfl, hobjects, hendp⟩ : status = errBadattr ∧ objects () = [7, 0, 0, 0] ∧
      some (endOf left [10, 0]) = some (ascii "\"x\": \"7\"\n\x7d\n" ++ [0]) := by
    simpa only [Except.toOption, Option.map_some, Option.some.injEq, Prod.mk.injEq] using hsame
  exact ⟨_, hrun, rfl, hobjects, hendp⟩

end UdpSm.Mjson
