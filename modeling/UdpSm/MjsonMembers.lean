import UdpSm.MjsonSafety

/-! The meaning of an object member by member, and the text that stands for it. What the states
of the parser make of such a text is what its members mean, errors and their places included. -/
namespace UdpSm.Mjson
open Lib
variable {ι : Type}

/-- One character of a string, as it can be written between quotes. -/
inductive Letter where
  | plain (c : UInt8)
  | escaped (c : UInt8)
  | coded (digits : List UInt8)
deriving DecidableEq

def Letter.text : Letter → List UInt8
  | .plain c => [c]
  | .escaped c => [ch '\\', c]
  | .coded digits => ch '\\' :: ch 'u' :: digits

def Letter.byte : Letter → UInt8
  | .plain c => c
  | .escaped c => unescape c
  | .coded digits => UInt8.ofNat (digitsValue 16 0 digits)

def Letter.Valid : Letter → Prop
  | .plain c => c ≠ 0 ∧ c ≠ ch '"' ∧ c ≠ ch '\\'
  | .escaped c => c ≠ 0 ∧ c ≠ ch 'u'
  | .coded digits => digits.length = 4 ∧ ∀ c ∈ digits, isxdigit c = true

inductive Literal where
  | quoted (letters : List Letter)
  | token (first : UInt8) (rest : List UInt8)
deriving DecidableEq

namespace Literal

def text : Literal → List UInt8
  | .quoted letters => ch '"' :: (letters.flatMap Letter.text ++ [ch '"'])
  | .token first rest => first :: rest

def isQuoted : Literal → Bool
  | .quoted _ => true
  | .token _ _ => false

def value : Literal → List UInt8
  | .quoted letters => cstring (letters.map Letter.byte)
  | .token first rest => first :: rest

/-- The first character of a token may be any that opens nothing else. -/
def Valid : Literal → Prop
  | .quoted letters => ∀ l ∈ letters, l.Valid
  | .token first rest =>
    (first ≠ 0 ∧ isspace first = false ∧ first ≠ ch ':' ∧ first ≠ ch '[' ∧ first ≠ ch '{' ∧
      first ≠ ch '"') ∧
    ∀ c ∈ rest, c ≠ 0 ∧ isspace c = false ∧ c ≠ ch ',' ∧ c ≠ ch '}'

def overlong (maxlen : Int) : Literal → Option Nat
  | .quoted letters =>
    if 0 < letters.length ∧ (valMax < letters.length ∨ maxlen + 1 < letters.length) then
      some errStrlong
    else none
  | .token _ rest => if valMax < rest.length + 1 then some errToklong else none

end Literal

structure Member where
  before : List UInt8
  name : List UInt8
  colon : List UInt8
  value : Literal
  after : List UInt8

def Member.named (m : Member) : List UInt8 :=
  ch '"' :: (m.name ++ ch '"' :: (m.colon ++ (m.value.text ++ m.after)))

def Member.text (m : Member) : List UInt8 := m.before ++ m.named

/-- Closing braces are passed over before a name, and a backslash in a name is a character. -/
structure Member.Valid (m : Member) : Prop where
  before : ∀ c ∈ m.before, isspace c = true ∨ c = ch '}'
  name : ∀ c ∈ m.name, c ≠ 0 ∧ c ≠ ch '"'
  colon : ∀ c ∈ m.colon, isspace c = true ∨ c = ch ':'
  value : m.value.Valid
  after : ∀ c ∈ m.after, isspace c = true

def render : List Member → List UInt8 → List UInt8
  | [], tail => tail
  | [m], tail => m.text ++ ch '}' :: tail
  | m :: ms, tail => m.text ++ ch ',' :: render ms tail

/-- What the members before leave to a member. -/
structure Seen (ι : Type) where
  objects : Objects ι
  maxlen : Int

section Meaning
variable [DecidableEq ι]

def readMember (attrs : List (JsonAttr ι)) (s : Seen ι) (m : Member) :
    Except Halt (Except Nat (Seen ι)) :=
  if attrMax - 1 < m.name.length then return .error errAttrlen
  else match findAttr attrs m.name with
    | [] => return .error errBadattr
    | spec :: rest =>
      let maxlen := maxlenOf spec s.maxlen
      match m.value.overlong maxlen with
      | some status => return .error status
      | none =>
        match seek m.value.isQuoted m.name m.value.value (spec :: rest) with
        | [] => .error .outOfBounds
        | spec :: _ => do
          match ← accept m.value.isQuoted s.objects spec m.value.value with
          | .error status => return .error status
          | .ok objects => return .ok ⟨objects, maxlen⟩

def readMembers (attrs : List (JsonAttr ι)) : Seen ι → List Member →
    Except Halt (Nat × Objects ι × List Member)
  | s, [] => return (0, s.objects, [])
  | s, m :: ms => do
    match ← readMember attrs s m with
    | .error status => return (status, s.objects, m :: ms)
    | .ok s => readMembers attrs s ms

end Meaning

end UdpSm.Mjson
