import ServiceMaps.Json.Number
import ServiceMaps.Value.Basic

/-!
Reading JSON. A text holds one value and blanks around it. Of two fields with one name the
later stays, half a surrogate pair is refused, and so are collections nested 128 deep.
-/
namespace ServiceMaps.Json

def isBlank (c : Char) : Bool := c = ' ' || c = '\n' || c = '\t' || c = '\r'

def skipBlanks (cs : List Char) : List Char := cs.dropWhile isBlank

/-- Where reading a string stands: in the text, behind a backslash, among hexadecimal digits, or
between the halves of a surrogate pair. -/
inductive Mode where
  | text
  | escape
  /-- `left` digits are to come; `high` is the first half of a pair if one came before. -/
  | hex (left value : Nat) (high : Option Nat)
  /-- A second half must follow: first a backslash, then the letter. -/
  | pairSlash (high : Nat)
  | pairLetter (high : Nat)
  deriving DecidableEq, Repr

def escape? (c : Char) : Option Char :=
  match c with
  | '"' => some '"'
  | '\\' => some '\\'
  | '/' => some '/'
  | 'b' => some '\x08'
  | 'f' => some '\x0c'
  | 'n' => some '\n'
  | 'r' => some '\r'
  | 't' => some '\t'
  | _ => none

def isHigh (n : Nat) : Bool := 0xd800 ≤ n && n ≤ 0xdbff
def isLow (n : Nat) : Bool := 0xdc00 ≤ n && n ≤ 0xdfff

/-- The character of a surrogate pair. -/
def paired (high low : Nat) : Char :=
  Char.ofNat (0x10000 + (high - 0xd800) * 0x400 + (low - 0xdc00))

def after (c : Char) (r : List Char × List Char) : List Char × List Char := (c :: r.1, r.2)

/-- Reads a string behind its opening quote. -/
def text? : Mode → List Char → Option (List Char × List Char)
  | _, [] => none
  | .text, c :: rest =>
    if c = '"' then some ([], rest)
    else if c = '\\' then text? .escape rest
    else if c.toNat < 0x20 then none
    else (text? .text rest).map (after c)
  | .escape, c :: rest =>
    if c = 'u' then text? (.hex 4 0 none) rest
    else match escape? c with
      | some e => (text? .text rest).map (after e)
      | none => none
  | .hex left value high, c :: rest =>
    match digitValue? 16 c with
    | none => none
    | some d =>
      let value := value * 16 + d
      if 1 < left then text? (.hex (left - 1) value high) rest
      else match high with
        | some h => if isLow value then (text? .text rest).map (after (paired h value)) else none
        | none =>
          if isHigh value then text? (.pairSlash value) rest
          else if isLow value then none
          else (text? .text rest).map (after (Char.ofNat value))
  | .pairSlash high, c :: rest => if c = '\\' then text? (.pairLetter high) rest else none
  | .pairLetter high, c :: rest => if c = 'u' then text? (.hex 4 0 (some high)) rest else none

def string? (cs : List Char) : Option (String × List Char) :=
  (text? .text cs).map fun (text, rest) => (String.ofList text, rest)

/-- The rest behind a word that must come next. -/
def word? (word : String) (cs : List Char) : Option (List Char) :=
  if word.toList.isPrefixOf cs then some (cs.drop word.length) else none

mutual

/-- Reads a value; `depth` counts the collections that may still be opened. -/
def value? : (fuel depth : Nat) → List Char → Option (Value × List Char)
  | 0, _, _ => none
  | fuel + 1, depth, cs =>
    match skipBlanks cs with
    | 'n' :: rest => (word? "ull" rest).map (Value.null, ·)
    | 't' :: rest => (word? "rue" rest).map (Value.bool true, ·)
    | 'f' :: rest => (word? "alse" rest).map (Value.bool false, ·)
    | '"' :: rest => (string? rest).map fun (s, rest) => (.str s, rest)
    | '[' :: rest =>
      if depth ≤ 1 then none
      else match skipBlanks rest with
        | ']' :: rest => some (.arr [], rest)
        | rest => (items? fuel (depth - 1) rest).map fun (items, rest) => (.arr items, rest)
    | '\x7b' :: rest =>
      if depth ≤ 1 then none
      else match skipBlanks rest with
        | '\x7d' :: rest => some (.obj [], rest)
        | rest => (entries? fuel (depth - 1) rest).map fun (entries, rest) =>
          (.obj (Fields.ofEntries entries), rest)
    | rest => (number? rest).map fun (n, rest) => (.ofNumber n, rest)

/-- Reads the items of an array up to its end; at least one is there. -/
def items? : (fuel depth : Nat) → List Char → Option (List Value × List Char)
  | 0, _, _ => none
  | fuel + 1, depth, cs => do
    let (v, rest) ← value? fuel depth cs
    match skipBlanks rest with
    | ']' :: rest => return ([v], rest)
    | ',' :: rest =>
      let (items, rest) ← items? fuel depth rest
      return (v :: items, rest)
    | _ => none

/-- Reads the entries of an object up to its end; at least one is there. -/
def entries? : (fuel depth : Nat) → List Char → Option (List (String × Value) × List Char)
  | 0, _, _ => none
  | fuel + 1, depth, cs =>
    match skipBlanks cs with
    | '"' :: rest => do
      let (name, rest) ← string? rest
      match skipBlanks rest with
      | ':' :: rest =>
        let (v, rest) ← value? fuel depth rest
        match skipBlanks rest with
        | '\x7d' :: rest => return ([(name, v)], rest)
        | ',' :: rest =>
          let (entries, rest) ← entries? fuel depth rest
          return ((name, v) :: entries, rest)
        | _ => none
      | _ => none
    | _ => none

end

/-- Collections nest less deep than this. -/
def maxDepth : Nat := 128

/-- Reads a whole text; every step takes at least one character. -/
def read? (text : String) : Option Value := do
  let cs := text.toList
  let (v, rest) ← value? (2 * cs.length + 2) maxDepth cs
  if (skipBlanks rest).isEmpty then some v else none

end ServiceMaps.Json
