/-!
The characters of a YAML text with the places where they stand. Every kind of line break is
one character here: a carriage return, a line feed, both together and the next-line character
all read as a line feed, while the line and paragraph separators stay themselves. A text that
holds a character outside the readable ones has no source.
-/
namespace ServiceMaps.Yaml

/-- A character with its line and column, both from zero. -/
structure Placed where
  char : Char
  line : Nat
  column : Nat
  deriving DecidableEq, Repr

/-- What is left of a text. -/
abbrev Source := List Placed

def isBreak (c : Char) : Bool :=
  c = '\n' || c = '\r' || c = '\u0085' || c = '\u2028' || c = '\u2029'

def isBlank (c : Char) : Bool := c = ' ' || c = '\t'

/-- The characters of anchors, handles and directive names. -/
def isWord (c : Char) : Bool :=
  ('0' ≤ c && c ≤ '9') || ('A' ≤ c && c ≤ 'Z') || ('a' ≤ c && c ≤ 'z') || c = '_' || c = '-'

/-- The characters that may stand in a text; control characters may only be escaped. -/
def isReadable (c : Char) : Bool :=
  c = '\t' || c = '\n' || c = '\r' || c = '\u0085' || (' ' ≤ c && c ≤ '~')
    || (0xa0 ≤ c.toNat && c.toNat ≤ 0xfffd) || 0x10000 ≤ c.toNat

/-- Gives each character its place, from a line and column on. -/
def place : Nat → Nat → List Char → Source
  | _, _, [] => []
  | line, column, '\r' :: '\n' :: rest => ⟨'\n', line, column⟩ :: place (line + 1) 0 rest
  | line, column, c :: rest =>
    if isBreak c then
      ⟨if c = '\r' || c = '\u0085' then '\n' else c, line, column⟩ :: place (line + 1) 0 rest
    else ⟨c, line, column⟩ :: place line (column + 1) rest

namespace Source

/-- The source of a text, if it is readable throughout. -/
def ofText? (text : String) : Option Source :=
  if text.toList.all isReadable then some (place 0 0 text.toList) else none

/-- Whether a test holds of the next character. -/
def nextIs (test : Char → Bool) : Source → Bool
  | [] => false
  | p :: _ => test p.char

/-- Whether the line ends here. -/
def atLineEnd : Source → Bool
  | [] => true
  | p :: _ => isBreak p.char

/-- Whether a blank or the line's end comes next. -/
def atGap : Source → Bool
  | [] => true
  | p :: _ => isBlank p.char || isBreak p.char

/-- Whether three given characters and then a gap come next. -/
def atMarker (c : Char) : Source → Bool
  | p :: q :: r :: rest => p.char = c && q.char = c && r.char = c && atGap rest
  | _ => false

/-- Whether a mark that starts or ends a document comes next. -/
def atDocumentMark (s : Source) : Bool := s.atMarker '-' || s.atMarker '.'

def skipBlanks : Source → Source
  | [] => []
  | p :: rest => if isBlank p.char then skipBlanks rest else p :: rest

def skipLine : Source → Source
  | [] => []
  | p :: rest => if isBreak p.char then p :: rest else skipLine rest

/-- The longest run of characters of a class, and what follows it. -/
def run (test : Char → Bool) : Source → List Char × Source
  | [] => ([], [])
  | p :: rest =>
    if test p.char then
      let (cs, after) := run test rest
      (p.char :: cs, after)
    else ([], p :: rest)

/-- Passes over blanks and a comment to the end of the line; anything else is refused. -/
def endLine? (s : Source) : Option Source :=
  let s := s.skipBlanks
  let s := if s.nextIs (· = '#') then s.skipLine else s
  if s.atLineEnd then some (s.drop 1) else none

end Source

/-- Blanks and line breaks between two parts of a scalar. Blanks on one line stand for
themselves; after a break blanks do not count. -/
inductive Gap where
  | blanks (cs : List Char)
  | breaks (first later : List Char)
  deriving DecidableEq, Repr

namespace Gap

def empty : Gap := .blanks []

/-- One more blank or break. -/
def extend (c : Char) : Gap → Gap
  | .blanks cs => if isBreak c then .breaks [c] [] else .blanks (cs ++ [c])
  | .breaks first later => if isBreak c then .breaks first (later ++ [c]) else .breaks first later

/-- A single line feed reads as a space, and before further breaks as nothing; any other
first break stays. -/
def fold (first later : List Char) : List Char :=
  if first = ['\n'] then (if later.isEmpty then [' '] else later) else first ++ later

def text : Gap → List Char
  | .blanks cs => cs
  | .breaks first later => fold first later

def broken : Gap → Bool
  | .blanks _ => false
  | .breaks .. => true

end Gap

end ServiceMaps.Yaml
