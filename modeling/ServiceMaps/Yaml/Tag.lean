import ServiceMaps.Yaml.Source
import ServiceMaps.Number.Digits

/-!
Tags and the directives that abbreviate them. A tag is a handle and a suffix; the suffix is
kept as octets because percent escapes spell octets, and only a whole tag is read as text.
A zero octet ends a tag.
-/
namespace ServiceMaps.Yaml

/-- The characters of a well-formed sequence of octets. -/
def decodeOctets : List Nat → Option (List Char)
  | [] => some []
  | a :: rest =>
    if a < 0x80 then (decodeOctets rest).map (Char.ofNat a :: ·)
    else match rest with
      | [] => none
      | b :: rest =>
        if a < 0xe0 then
          let n := a % 0x20 * 0x40 + b % 0x40
          if n < 0x80 then none else (decodeOctets rest).map (Char.ofNat n :: ·)
        else match rest with
          | [] => none
          | c :: rest =>
            if a < 0xf0 then
              let n := a % 0x10 * 0x1000 + b % 0x40 * 0x40 + c % 0x40
              if n < 0x800 || (0xd800 ≤ n && n ≤ 0xdfff) then none
              else (decodeOctets rest).map (Char.ofNat n :: ·)
            else match rest with
              | [] => none
              | d :: rest =>
                let n := a % 0x08 * 0x40000 + b % 0x40 * 0x1000 + c % 0x40 * 0x40 + d % 0x40
                if n < 0x10000 || 0x10ffff < n then none
                else (decodeOctets rest).map (Char.ofNat n :: ·)

/-- A resolved tag. -/
structure Tag where
  octets : List Nat
  deriving DecidableEq, Repr

namespace Tag

def ofString (s : String) : Tag := ⟨s.toList.map Char.toNat⟩

/-- The tags of the core types, which fix how a scalar is read. -/
def boolean : Tag := ofString "tag:yaml.org,2002:bool"
def integer : Tag := ofString "tag:yaml.org,2002:int"
def float : Tag := ofString "tag:yaml.org,2002:float"
def null : Tag := ofString "tag:yaml.org,2002:null"

/-- Whether the tag belongs to the application and not to the format. -/
def isLocal (t : Tag) : Bool := t.octets.head? = some '!'.toNat

/-- Takes a mark off the front of a name, unless nothing else is there. -/
def unmarked : List Char → List Char
  | '!' :: c :: rest => c :: rest
  | name => name

/-- The name of a local tag. It is what follows the tag's mark, without a further mark; the mark
alone is its own name. -/
def localName? (t : Tag) : Option String :=
  match t.octets with
  | mark :: rest =>
    if mark = '!'.toNat then
      (decodeOctets (if rest.isEmpty then [mark] else rest)).map (String.ofList <| unmarked ·)
    else none
  | [] => none

end Tag

/-- The characters of a tag besides the flow indicators, which only a bracketed tag may hold. -/
def isTagChar (bracketed : Bool) (c : Char) : Bool :=
  isWord c || ";/?:@&=+$.%!~*'()".toList.contains c
    || (bracketed && (c = ',' || c = '[' || c = ']'))

/-- How many octets follow a leading octet; nothing if it cannot lead. -/
def octetsAfter? (a : Nat) : Option Nat :=
  if a < 0x80 then some 0
  else if 0xc0 ≤ a && a < 0xe0 then some 1
  else if 0xe0 ≤ a && a < 0xf0 then some 2
  else if 0xf0 ≤ a && a < 0xf8 then some 3
  else none

/-- The octets that a tag's characters spell; `owed` octets must still follow as escapes. -/
def tagOctets? : Nat → List Char → Option (List Nat)
  | owed, [] => if owed = 0 then some [] else none
  | owed, '%' :: h :: l :: rest => do
    let octet := (← digitValue? 16 h) * 16 + (← digitValue? 16 l)
    if owed = 0 then
      return octet :: (← tagOctets? (← octetsAfter? octet) rest)
    else if 0x80 ≤ octet && octet < 0xc0 then
      return octet :: (← tagOctets? (owed - 1) rest)
    else none
  | owed, c :: rest =>
    if owed = 0 && c ≠ '%' then (tagOctets? 0 rest).map (c.toNat :: ·) else none

/-- Reads a run of tag characters after some that were read as a handle; at least one is needed. -/
def tagSuffix? (bracketed : Bool) (before : List Char) (s : Source) :
    Option (List Nat × Source) := do
  let (cs, rest) := s.run (isTagChar bracketed)
  if before.isEmpty && cs.isEmpty then none
  else
    let octets ← tagOctets? 0 cs
    return (((before.drop 1).map Char.toNat ++ octets).takeWhile (· ≠ 0), rest)

/-- A handle: a mark, word characters and perhaps a second mark. -/
def tagHandle? : Source → Option (List Char × Source)
  | [] => none
  | p :: rest =>
    if p.char = '!' then
      let (word, after) := Source.run isWord rest
      if after.nextIs (· = '!') then some ('!' :: word ++ ['!'], after.drop 1)
      else some ('!' :: word, after)
    else none

def isNamedHandle (handle : List Char) : Bool := 1 < handle.length && handle.getLast? = some '!'

/-- A tag as it is written: the handle to look up and the suffix. -/
structure TagSpelling where
  handle : String
  suffix : List Nat
  deriving DecidableEq, Repr

namespace TagSpelling

/-- Reads a tag: bracketed, with a named handle, or after a single mark. The mark alone is a
tag without a handle. -/
def body? (s : Source) : Option (TagSpelling × Source) :=
  if Source.nextIs (· = '<') (s.drop 1) then do
    let (suffix, rest) ← tagSuffix? true [] (s.drop 2)
    if rest.nextIs (· = '>') then return (⟨"", suffix⟩, rest.drop 1) else none
  else do
    let (handle, rest) ← tagHandle? s
    if isNamedHandle handle then
      let (suffix, rest) ← tagSuffix? false [] rest
      return (⟨String.ofList handle, suffix⟩, rest)
    else
      let (suffix, rest) ← tagSuffix? false handle rest
      return (if suffix.isEmpty then ⟨"", ['!'.toNat]⟩ else ⟨"!", suffix⟩, rest)

/-- Reads a tag that ends at a gap, or in a flow collection at a comma. -/
def read? (flow : Bool) (s : Source) : Option (TagSpelling × Source) := do
  let (tag, rest) ← body? s
  if rest.atGap || (flow && rest.nextIs (· = ',')) then return (tag, rest) else none

/-- The tag that a spelling stands for under the handles in force. -/
def resolve? (handles : List (String × List Nat)) (t : TagSpelling) : Option Tag :=
  if t.handle = "" then some ⟨t.suffix⟩
  else (handles.lookup t.handle).map fun start => ⟨start ++ t.suffix⟩

end TagSpelling

/-- A directive line. -/
inductive Directive where
  | version (major minor : Nat)
  | handle (name : String) (start : List Nat)
  deriving DecidableEq, Repr

namespace Directive

/-- A number of at most nine digits. -/
def number? (s : Source) : Option (Nat × Source) :=
  let (digits, rest) := s.run isDecimalDigit
  if digits.isEmpty || 9 < digits.length then none
  else some (digits.foldl (fun n c => 10 * n + (c.toNat - '0'.toNat)) 0, rest)

def version? (s : Source) : Option (Directive × Source) := do
  let (major, rest) ← number? s.skipBlanks
  if rest.nextIs (· = '.') then
    let (minor, rest) ← number? (rest.drop 1)
    return (.version major minor, rest)
  else none

def handle? (s : Source) : Option (Directive × Source) := do
  let (name, rest) ← tagHandle? s.skipBlanks
  if (isNamedHandle name || name = ['!']) && rest.nextIs isBlank then
    let (start, rest) ← tagSuffix? true [] rest.skipBlanks
    if rest.atGap then return (.handle (String.ofList name) start, rest) else none
  else none

/-- Reads a directive after its mark, to the end of the line. -/
def read? (s : Source) : Option (Directive × Source) := do
  let (name, rest) := s.run isWord
  if rest.atGap then
    let (directive, rest) ←
      if name = "YAML".toList then version? rest
      else if name = "TAG".toList then handle? rest
      else none
    return (directive, ← rest.endLine?)
  else none

end Directive

/-- The handles that need no directive. -/
def standardHandles : List (String × List Nat) :=
  [("!", "!".toList.map Char.toNat), ("!!", "tag:yaml.org,2002:".toList.map Char.toNat)]

end ServiceMaps.Yaml
