import ServiceMaps.Yaml.Datum

/-!
How a text is written as a scalar. A text that reads as something else is quoted; a text with
line feeds becomes a block scalar with its lines kept; any other text is plain. Where the style
does not fit the text, single quotes take the place of a plain scalar, and double quotes with
escapes fit every text.
-/
namespace ServiceMaps.Yaml

inductive Style where
  | plain | single | double | literal
  deriving DecidableEq, Repr

namespace Style

/-- Characters that are written as they are. -/
def isPrintable (c : Char) : Bool :=
  c = '\n' || (' ' ≤ c && c ≤ '~')
    || (0xa0 ≤ c.toNat && c.toNat ≤ 0xfffd && c ≠ '\ufeff') || 0x10000 ≤ c.toNat

/-- Whether a character of the first kind stands right before one of the second. -/
def meets (first second : Char → Bool) : List Char → Bool
  | c :: d :: rest => (first c && second d) || meets first second (d :: rest)
  | _ => false

def isSpace (c : Char) : Bool := c = ' '

/-- A blank, a break or the end of the text, which ends a plain scalar behind a colon. -/
def isGap (c : Char) : Bool := isBlank c || isBreak c || c = '\x00'

def startsGap : List Char → Bool
  | [] => true
  | c :: _ => isGap c

/-- Whether a colon ends a plain scalar, or a number sign starts a comment, after the first
character. -/
def hasMark : (afterGap : Bool) → List Char → Bool
  | _, [] => false
  | afterGap, c :: rest =>
    (c = ':' && startsGap rest) || (c = '#' && afterGap) || hasMark (isGap c) rest

/-- The characters that a plain scalar never starts with. -/
def neverFirst (c : Char) : Bool := "#,[]\x7b\x7d&*!|>'\"%@`".toList.contains c

/-- Whether the text would not be read as one plain scalar in a block collection. -/
def hasIndicator : List Char → Bool
  | [] => false
  | c :: rest =>
    ['-', '-', '-'].isPrefixOf (c :: rest) || ['.', '.', '.'].isPrefixOf (c :: rest)
      || neverFirst c || ((c = '?' || c = ':' || c = '-') && startsGap rest)
      || hasMark (isGap c) rest

def hasBreak (cs : List Char) : Bool := cs.any isBreak

/-- Whether blanks beside breaks, or characters that must be escaped, allow double quotes only. -/
def needsEscapes (cs : List Char) : Bool :=
  meets isSpace isBreak cs || cs.any (!isPrintable ·)

def fitsSingle (cs : List Char) : Bool := !needsEscapes cs && !meets isBreak isSpace cs

def fitsLiteral (cs : List Char) : Bool :=
  !needsEscapes cs && !cs.isEmpty && !cs.getLast?.any isSpace

def fitsPlain (cs : List Char) : Bool :=
  fitsSingle cs && !hasBreak cs && !cs.head?.any isSpace && !cs.getLast?.any isSpace
    && !hasIndicator cs

/-- Whether a plain scalar of this text would read as something else than the text, or has
digits that look like a number. -/
def isAmbiguous (s : String) : Bool :=
  Datum.isPadded s.toList || match Datum.ofPlain? s with
    | some (.str _) => false
    | _ => true

/-- The style that the meaning of a text asks for. -/
def wanted (s : String) : Style :=
  if s.toList.contains '\n' then .literal
  else if isAmbiguous s then .single
  else .plain

/-- The style that the characters of a text allow. -/
def fitting (cs : List Char) : Style → Style
  | .plain => if fitsPlain cs then .plain else if fitsSingle cs then .single else .double
  | .single => if fitsSingle cs then .single else .double
  | .literal => if fitsLiteral cs then .literal else .double
  | .double => .double

def ofText (s : String) : Style := fitting s.toList (wanted s)

/-- The letter of a short escape. -/
def escapeLetter? (c : Char) : Option Char :=
  match c with
  | '\x00' => some '0'
  | '\x07' => some 'a'
  | '\x08' => some 'b'
  | '\t' => some 't'
  | '\n' => some 'n'
  | '\x0b' => some 'v'
  | '\x0c' => some 'f'
  | '\r' => some 'r'
  | '\x1b' => some 'e'
  | '"' => some '"'
  | '\\' => some '\\'
  | '\u0085' => some 'N'
  | '\u2028' => some 'L'
  | '\u2029' => some 'P'
  | _ => none

/-- A character between double quotes. -/
def escaped (c : Char) : List Char :=
  if isPrintable c && !isBreak c && c ≠ '"' && c ≠ '\\' then [c]
  else match escapeLetter? c with
    | some letter => ['\\', letter]
    | none =>
      if c.toNat ≤ 0xff then '\\' :: 'x' :: hexDigits upperHex 2 c.toNat
      else if c.toNat ≤ 0xffff then '\\' :: 'u' :: hexDigits upperHex 4 c.toNat
      else '\\' :: 'U' :: hexDigits upperHex 8 c.toNat

def doubleQuoted (cs : List Char) : List Char := '"' :: cs.flatMap escaped ++ ['"']

def spaces (n : Nat) : List Char := List.replicate n ' '

/-- The inside of single quotes; text after a break is indented, and so is the closing quote. -/
def singleBody (indent : Nat) : (afterBreak : Bool) → List Char → List Char
  | afterBreak, [] => if afterBreak then spaces indent else []
  | afterBreak, c :: rest =>
    if isBreak c then c :: singleBody indent true rest
    else
      (if afterBreak && c ≠ ' ' then spaces indent else [])
        ++ (if c = '\'' then ['\'', '\''] else [c])
        ++ singleBody indent (afterBreak && c = ' ') rest

def singleQuoted (indent : Nat) (cs : List Char) : List Char :=
  '\'' :: singleBody indent false cs ++ ['\'']

/-- The header of a block scalar: the indentation is spelled out if the text starts with a blank
or a break, and a mark says whether it ends in no break or in several. -/
def literalHeader (cs : List Char) : List Char :=
  let hint := if cs.head?.any fun c => c = ' ' || isBreak c then ['2'] else []
  let chomping :=
    match cs.reverse with
    | [] => ['-']
    | [c] => if isBreak c then ['+'] else ['-']
    | c :: d :: _ => if !isBreak c then ['-'] else if isBreak d then ['+'] else []
  '|' :: hint ++ chomping

/-- The lines of a block scalar; only lines with text are indented. -/
def literalBody (indent : Nat) : (afterBreak : Bool) → List Char → List Char
  | _, [] => []
  | afterBreak, c :: rest =>
    if isBreak c then c :: literalBody indent true rest
    else (if afterBreak then spaces indent else []) ++ c :: literalBody indent false rest

/-- Ends a line unless it is at an end. -/
def endLine (cs : List Char) : List Char :=
  if cs.getLast?.any isBreak then cs else cs ++ ['\n']

/-- A text as a scalar whose further lines are indented by `indent`, up to the end of its line. -/
def write (indent : Nat) (s : String) : List Char :=
  match ofText s with
  | .plain => s.toList ++ ['\n']
  | .single => singleQuoted indent s.toList ++ ['\n']
  | .double => doubleQuoted s.toList ++ ['\n']
  | .literal => endLine (literalHeader s.toList ++ '\n' :: literalBody indent true s.toList)

/-- Whether a text can stand as a key before its colon: short and on one line. -/
def isSimpleKey (s : String) : Bool := s.utf8ByteSize ≤ 128 && !hasBreak s.toList

/-- A text as a key before its colon. -/
def writeKey (s : String) : List Char :=
  match ofText s with
  | .plain => s.toList
  | .single => singleQuoted 0 s.toList
  | _ => doubleQuoted s.toList

end Style

end ServiceMaps.Yaml
