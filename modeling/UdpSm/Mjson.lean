import UdpSm.Lib.CString
import UdpSm.CommonData
import UdpSm.Utils
import Mathlib.Logic.Function.Basic

/-! `mjson.cpp`: a JSON object read into fixed storage that a table of attributes describes.
The text is what the input buffer holds from the read pointer on. -/
namespace UdpSm.Mjson
open Lib
variable {ι : Type} [DecidableEq ι]

inductive JsonState where
  | init
  | awaitAttr
  | inAttr
  | awaitValue
  | inValString
  | inEscape
  | inValToken
  | postVal
  | postElement
deriving DecidableEq, Repr

/-- The types of attributes that need neither a table of their own nor floating point (`t_real` and
`t_time` do). -/
inductive JsonType where
  | integer
  | uinteger
  | string
  | boolean
  | character
  | check
  | ignore
  | short
  | ushort
deriving DecidableEq, Repr

structure JsonEnum where
  name : List UInt8
  value : Int

/-- `addr` names the object that receives the value, and objects are told apart by `ι`. -/
structure JsonAttr (ι : Type) where
  attributeName : List UInt8
  type : JsonType
  addr : ι
  dflt : Int
  check : List UInt8
  len : Nat
  map : Option (List JsonEnum)
  nodefault : Bool

def attrMax : Nat := 31
def valMax : Nat := 512

def errObstart : Nat := 1
def errAttrstart : Nat := 2
def errBadattr : Nat := 3
def errAttrlen : Nat := 4
def errNoarray : Nat := 5
def errStrlong : Nat := 7
def errToklong : Nat := 8
def errBadtrail : Nat := 9
def errBadstring : Nat := 15
def errCheckfail : Nat := 16
def errBadenum : Nat := 18
def errQnonstring : Nat := 19
def errNonqstring : Nat := 20
def errNullptr : Nat := 23
def errEmpty : Nat := 25

abbrev Objects (ι : Type) := ι → List UInt8

def memcpy (o : Objects ι) (i : ι) (bytes : List UInt8) : Except Halt (Objects ι) :=
  if bytes.length ≤ (o i).length then
    .ok (Function.update o i (bytes ++ (o i).drop bytes.length))
  else .error .outOfBounds

def intBytes (k : Nat) (v : Int) : List UInt8 := leBytes k (v % 256 ^ k).toNat

def boolByte (b : Bool) : List UInt8 := [if b then 1 else 0]

def atoi (s : List UInt8) : Int := int32 (strtol 10 s)

/-- There is no parent array, so the address is the one in the table. -/
def targetAddress (spec : JsonAttr ι) : Option ι :=
  match spec.type with
  | .check => none
  | .ignore => none
  | _ => some spec.addr

def defaultBytes (spec : JsonAttr ι) : List UInt8 :=
  match spec.type with
  | .integer => intBytes 4 spec.dflt
  | .uinteger => intBytes 4 spec.dflt
  | .short => intBytes 2 spec.dflt
  | .ushort => intBytes 2 spec.dflt
  | .string => [0]
  | .boolean => boolByte (spec.dflt != 0)
  | .character => intBytes 1 spec.dflt
  | .check => []
  | .ignore => []

def stuffDefault (o : Objects ι) (spec : JsonAttr ι) : Except Halt (Objects ι) :=
  if spec.nodefault then .ok o
  else match targetAddress spec with
    | none => .ok o
    | some i => memcpy o i (defaultBytes spec)

def stuffDefaults (attrs : List (JsonAttr ι)) (o : Objects ι) : Except Halt (Objects ι) :=
  attrs.foldlM stuffDefault o

/-- The local variables of a parse. The buffers `attrbuf` and `valbuf` are what stands in them
before `pattr` and `pval`, and a null pointer is `none`. `cursor` is the table from the cursor on. -/
structure Parse (ι : Type) where
  state : JsonState
  pattr : Option (List UInt8)
  pval : Option (List UInt8)
  valueQuoted : Bool
  cursor : List (JsonAttr ι)
  maxlen : Int
  objects : Objects ι
  endp : Option (List UInt8)

structure Result (ι : Type) where
  status : Nat
  objects : Objects ι
  endp : Option (List UInt8)

inductive Move (ι : Type) where
  | next (p : Parse ι) (cp : List UInt8)
  | give (status : Nat) (p : Parse ι)
  | goodParse (p : Parse ι) (cp : List UInt8)

def peek (cp : List UInt8) : Except Halt UInt8 :=
  match cp with
  | [] => .error .outOfBounds
  | c :: _ => .ok c

/-- `while (*cp != '\0' && isspace(*cp)) ++cp;` -/
def skipSpace (cp : List UInt8) : Except Halt (List UInt8) := do
  let cp := cp.dropWhile isspace
  let _ ← peek cp
  return cp

/-- `*pointer++ = c` in an array of `size` characters. -/
def push (size : Nat) (buffer : List UInt8) (c : UInt8) : Except Halt (List UInt8) :=
  if buffer.length < size then .ok (buffer ++ [c]) else .error .outOfBounds

def pushAttr (buffer : List UInt8) (c : UInt8) : Except Halt (List UInt8) := push (attrMax + 1) buffer c
def pushVal (buffer : List UInt8) (c : UInt8) : Except Halt (List UInt8) := push (valMax + 1) buffer c

def init (p : Parse ι) (c : UInt8) (cp : List UInt8) : Except Halt (Move ι) :=
  if isspace c then return .next p cp.tail
  else if c = ch '{' then return .next { p with state := .awaitAttr } cp.tail
  else return .give errObstart { p with endp := some cp }

def awaitAttr (p : Parse ι) (c : UInt8) (cp : List UInt8) : Except Halt (Move ι) :=
  if isspace c then return .next p cp.tail
  else if c = ch '"' then
    return .next { p with state := .inAttr, pattr := some [], endp := some cp } cp.tail
  -- the `break` leaves the switch only, and the state is still this one
  else if c = ch '}' then return .next p cp.tail
  else return .give errAttrstart { p with endp := some cp }

def findAttr (attrs : List (JsonAttr ι)) (name : List UInt8) : List (JsonAttr ι) :=
  attrs.dropWhile fun spec =>
    !(spec.attributeName == name || (spec.attributeName == [] && spec.type == .ignore))

/-- An attribute of none of these kinds leaves `maxlen` as the attribute before it set it. -/
def maxlenOf (spec : JsonAttr ι) (maxlen : Int) : Int :=
  if spec.type = .string then int32 spec.len - 1
  else if spec.type = .check then spec.check.length
  else if spec.type = .ignore then valMax
  else if spec.map.isSome then valMax
  else maxlen

def named (attrs : List (JsonAttr ι)) (p : Parse ι) (attrbuf cp : List UInt8) : Move ι :=
  match findAttr attrs (cstring attrbuf) with
  | [] => .give errBadattr { p with pattr := some attrbuf }
  | spec :: rest => .next { p with
      state := .awaitValue
      pattr := some attrbuf
      cursor := spec :: rest
      maxlen := maxlenOf spec p.maxlen
      pval := some [] } cp

def inAttr (attrs : List (JsonAttr ι)) (p : Parse ι) (c : UInt8) (cp : List UInt8) :
    Except Halt (Move ι) :=
  match p.pattr with
  | none => return .give errNullptr p
  | some attrbuf =>
    if c = ch '"' then do
      let attrbuf ← pushAttr attrbuf 0
      return named attrs p attrbuf cp.tail
    else if attrbuf.length ≥ attrMax - 1 then return .give errAttrlen p
    else do
      let attrbuf ← pushAttr attrbuf c
      return .next { p with pattr := some attrbuf } cp.tail

/-- The types leave no cursor at an array or an object. -/
def awaitValue (p : Parse ι) (c : UInt8) (cp : List UInt8) : Except Halt (Move ι) :=
  if isspace c || c = ch ':' then return .next p cp.tail
  else if c = ch '[' then return .give errNoarray { p with endp := some cp }
  else if c = ch '{' then return .give errNoarray { p with endp := some cp }
  else if c = ch '"' then
    return .next { p with valueQuoted := true, state := .inValString, pval := some [] } cp.tail
  else do
    let valbuf ← pushVal [] c
    return .next { p with valueQuoted := false, state := .inValToken, pval := some valbuf } cp.tail

/-- `pval > valbuf + JSON_VAL_MAX - 1 || pval > valbuf + maxlen` -/
def tooLong (valbuf : List UInt8) (maxlen : Int) : Bool :=
  valbuf.length > valMax - 1 || (valbuf.length : Int) > maxlen

def inValString (p : Parse ι) (c : UInt8) (cp : List UInt8) : Except Halt (Move ι) :=
  match p.pval with
  | none => return .give errNullptr p
  | some valbuf =>
    if c = ch '\\' then return .next { p with state := .inEscape } cp.tail
    else if c = ch '"' then do
      let valbuf ← pushVal valbuf 0
      return .next { p with pval := some valbuf, state := .postVal } cp.tail
    else if tooLong valbuf p.maxlen then return .give errStrlong p
    else do
      let valbuf ← pushVal valbuf c
      return .next { p with pval := some valbuf } cp.tail

/-- `for (n = 0; n < 4 && isxdigit(*cp); n++) uescape[n] = *cp++;` -/
def hexDigits : Nat → List UInt8 → Except Halt (List UInt8 × List UInt8)
  | 0, cp => return ([], cp)
  | n+1, cp => do
    let c ← peek cp
    if isxdigit c then
      let (digits, rest) ← hexDigits n cp.tail
      return (c :: digits, rest)
    else return ([], cp)

def unescape (c : UInt8) : UInt8 :=
  if c = ch 'b' then 8
  else if c = ch 'f' then 12
  else if c = ch 'n' then 10
  else if c = ch 'r' then 13
  else if c = ch 't' then 9
  else c

def inEscape (p : Parse ι) (c : UInt8) (cp : List UInt8) : Except Halt (Move ι) :=
  match p.pval with
  | none => return .give errNullptr p
  | some valbuf =>
    if tooLong valbuf p.maxlen then return .give errStrlong p
    else if c = ch 'u' then do
      let (uescape, rest) ← hexDigits 4 cp.tail
      if uescape.length ≠ 4 then return .give errBadstring p
      else
        let valbuf ← pushVal valbuf (UInt8.ofNat (digitsValue 16 0 uescape))
        return .next { p with pval := some valbuf, state := .inValString } rest
    else do
      let valbuf ← pushVal valbuf (unescape c)
      return .next { p with pval := some valbuf, state := .inValString } cp.tail

def inValToken (p : Parse ι) (c : UInt8) (cp : List UInt8) : Except Halt (Move ι) :=
  match p.pval with
  | none => return .give errNullptr p
  | some valbuf =>
    if isspace c || c = ch ',' || c = ch '}' then do
      -- the terminator goes in without a step of the pointer
      let _ ← pushVal valbuf 0
      return .next { p with state := .postVal }
        (if c = ch '}' || c = ch ',' then cp else cp.tail)
    else if valbuf.length > valMax - 1 then return .give errToklong p
    else do
      let valbuf ← pushVal valbuf c
      return .next { p with pval := some valbuf } cp.tail

def postElement (p : Parse ι) (cp : List UInt8) : Except Halt (Move ι) := do
  let c ← peek cp
  if isspace c then return .next p cp.tail
  else if c = ch ',' then return .next { p with state := .awaitAttr } cp.tail
  else if c = ch '}' then return .goodParse p cp.tail
  else return .give errBadtrail { p with endp := some cp }

def fits (quoted : Bool) (value : List UInt8) (spec : JsonAttr ι) : Bool :=
  let digit := value.head?.any isdigit
  (quoted && spec.type == .string) ||
    ((value == ascii "true" || value == ascii "false" || digit) && spec.type == .boolean) ||
    (digit && !value.contains (ch '.') && (spec.type == .integer || spec.type == .uinteger))

/-- Adjacent specifications of one name stand for values of different types. -/
def seek (quoted : Bool) (name value : List UInt8) : List (JsonAttr ι) → List (JsonAttr ι)
  | spec :: next :: rest =>
    if fits quoted value spec then spec :: next :: rest
    else if next.attributeName ≠ name then spec :: next :: rest
    else seek quoted name value (next :: rest)
  | cursor => cursor

def wantsQuotes (spec : JsonAttr ι) : Bool :=
  spec.type == .string || spec.type == .check || spec.map.isSome

def allowsQuotes (spec : JsonAttr ι) : Bool :=
  spec.type == .string || spec.type == .character || spec.type == .check ||
    spec.type == .ignore || spec.map.isSome

/-- One byte less than the object holds is written, so its last byte stays what it was. -/
def storeString (o : Objects ι) (i : ι) (len : Nat) (value : List UInt8) : Except Halt (Objects ι) := do
  let cl := (len + 2 ^ 64 - 1) % 2 ^ 64
  let o ← memcpy o i (List.replicate cl 0)
  memcpy o i (value.take cl)

def numberBytes (type : JsonType) (value : List UInt8) : List UInt8 :=
  match type with
  | .short => intBytes 2 (atoi value)
  | .ushort => intBytes 2 (atoi value)
  | _ => intBytes 4 (atoi value)

def storeValue (o : Objects ι) (spec : JsonAttr ι) (value : List UInt8) :
    Except Halt (Except Nat (Objects ι)) :=
  match spec.type with
  | .integer => return .ok (← memcpy o spec.addr (numberBytes spec.type value))
  | .uinteger => return .ok (← memcpy o spec.addr (numberBytes spec.type value))
  | .short => return .ok (← memcpy o spec.addr (numberBytes spec.type value))
  | .ushort => return .ok (← memcpy o spec.addr (numberBytes spec.type value))
  | .string => return .ok (← storeString o spec.addr spec.len value)
  | .boolean => return .ok (← memcpy o spec.addr
      (boolByte (value == ascii "true" || strtol 0 value != 0)))
  | .character =>
    if value.length > 1 then return .error errStrlong
    else return .ok (← memcpy o spec.addr [value.headD 0])
  | .check => if spec.check = value then return .ok o else return .error errCheckfail
  | .ignore => return .ok o

def enumerated (spec : JsonAttr ι) (value : List UInt8) : Except Nat (List UInt8) :=
  match spec.map with
  | none => .ok value
  | some map =>
    match map.find? fun mp => mp.name = value with
    | none => .error errBadenum
    | some mp => .ok (decimal mp.value)

def accept (quoted : Bool) (o : Objects ι) (spec : JsonAttr ι) (value : List UInt8) :
    Except Halt (Except Nat (Objects ι)) :=
  if quoted && !allowsQuotes spec then return .error errQnonstring
  else if !quoted && wantsQuotes spec then return .error errNonqstring
  else match enumerated spec value with
    | .error status => return .error status
    | .ok value => storeValue o spec value

def judge (p : Parse ι) (attrbuf valbuf cp : List UInt8) : Except Halt (Move ι) :=
  match seek p.valueQuoted (cstring attrbuf) (cstring valbuf) p.cursor with
  | [] => .error .outOfBounds
  | spec :: rest => do
    let p := { p with cursor := spec :: rest }
    match ← accept p.valueQuoted p.objects spec (cstring valbuf) with
    | .error status => return .give status p
    | .ok objects => postElement { p with objects := objects } cp

def postVal (p : Parse ι) (cp : List UInt8) : Except Halt (Move ι) := do
  let cp ← skipSpace cp
  match p.pattr, p.pval with
  | some attrbuf, some valbuf => judge p attrbuf valbuf cp
  | _, _ => .error .outOfBounds

def step (attrs : List (JsonAttr ι)) (p : Parse ι) (c : UInt8) (cp : List UInt8) :
    Except Halt (Move ι) :=
  match p.state with
  | .init => init p c cp
  | .awaitAttr => awaitAttr p c cp
  | .inAttr => inAttr attrs p c cp
  | .awaitValue => awaitValue p c cp
  | .inValString => inValString p c cp
  | .inEscape => inEscape p c cp
  | .inValToken => inValToken p c cp
  | .postVal => postVal p cp
  | .postElement => postElement p cp

def goodParse (p : Parse ι) (cp : List UInt8) : Except Halt (Result ι) := do
  let cp ← skipSpace cp
  return ⟨0, p.objects, some cp⟩

/-- The loop over the text, which a NUL ends in any state. -/
def loop (attrs : List (JsonAttr ι)) : Nat → Parse ι → List UInt8 → Except Halt (Result ι)
  | 0, _, _ => .error .spins
  | fuel+1, p, cp => do
    let c ← peek cp
    if c = 0 then
      if p.state = .init then return ⟨errEmpty, p.objects, p.endp⟩ else goodParse p cp
    else match ← step attrs p c cp with
      | .next p cp => loop attrs fuel p cp
      | .give status p => return ⟨status, p.objects, p.endp⟩
      | .goodParse p cp => goodParse p cp

/-- What the buffers hold before the first store into them is never read. -/
def opening (o : Objects ι) : Parse ι where
  state := .init
  pattr := none
  pval := none
  valueQuoted := false
  cursor := []
  maxlen := 0
  objects := o
  endp := none

/-- The end of a token is looked at twice, hence the factor. -/
def jsonReadObject (cp : List UInt8) (attrs : List (JsonAttr ι)) (o : Objects ι) :
    Except Halt (Result ι) := do
  let o ← stuffDefaults attrs o
  loop attrs (2 * cp.length + 1) (opening o) cp

def errors : List String := [
  "unknown error while parsing JSON",
  "non-whitespace when expecting object start",
  "non-whitespace when expecting attribute start",
  "unknown attribute name",
  "attribute name too long",
  "saw [ when not expecting array",
  "array element specified, but no [",
  "string value too long",
  "token value too long",
  "garbage while expecting comma or \x7d or ]",
  "didn't find expected array start",
  "error while parsing object array",
  "too many array elements",
  "garbage while expecting array comma",
  "unsupported array element type",
  "error while string parsing",
  "check attribute not matched",
  "can't support strings in parallel arrays",
  "invalid enumerated value",
  "saw quoted value when expecting nonstring",
  "didn't see quoted value when expecting string",
  "other data conversion error",
  "error while parsing a numerical argument",
  "unexpected null value or attribute pointer",
  "object element specified, but no \x7b",
  "input was empty or white-space only"]

def jsonErrorString (err : Int) : String :=
  if err ≤ 0 ∨ err ≥ errors.length then errors.headD "" else errors.getD err.toNat ""

end UdpSm.Mjson
