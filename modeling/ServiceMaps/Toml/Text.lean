import ServiceMaps.Number.Digits

/-!
Strings, keys and blanks of TOML. A line may end in a carriage return and a line feed; such a
pair counts as one line feed everywhere, and `unify` makes it one before reading. A carriage
return of its own stands nowhere in a text.
-/
namespace ServiceMaps.Toml

/-- Makes one line feed of every pair of a carriage return and a line feed. -/
def unify : List Char → List Char
  | '\r' :: '\n' :: rest => '\n' :: unify rest
  | c :: rest => c :: unify rest
  | [] => []

def isBlank (c : Char) : Bool := c = ' ' || c = '\t'

def skipBlanks (cs : List Char) : List Char := cs.dropWhile isBlank

/-- The characters of comments and strings: no control characters besides the tab. -/
def isTextual (c : Char) : Bool := c = '\t' || (0x20 ≤ c.toNat && c.toNat ≠ 0x7f)

/-- Passes over blanks, a comment and the end of the line. -/
def endLine? (cs : List Char) : Option (List Char) :=
  let rest := match skipBlanks cs with
    | '#' :: comment => comment.dropWhile isTextual
    | rest => rest
  match rest with
  | [] => some []
  | '\n' :: rest => some rest
  | _ => none

/-- Where reading a string between double quotes stands. -/
inductive Mode where
  /-- In the text; `trimming` passes over blanks and line feeds first. -/
  | text (trimming : Bool)
  | escape
  /-- Behind a backslash and blanks, where the line must end. -/
  | lineEnd
  | hex (left value : Nat)
  deriving DecidableEq, Repr

def escape? (c : Char) : Option Char :=
  match c with
  | 'b' => some '\x08'
  | 't' => some '\t'
  | 'n' => some '\n'
  | 'f' => some '\x0c'
  | 'r' => some '\r'
  | '"' => some '"'
  | '\\' => some '\\'
  | _ => none

def hexLength? (c : Char) : Option Nat :=
  match c with
  | 'u' => some 4
  | 'U' => some 8
  | _ => none

def after (before : List Char) (r : List Char × List Char) : List Char × List Char :=
  (before ++ r.1, r.2)

/-- The end of a string: one quote, or three, before which up to two more belong to the text. -/
def close? (quote : Char) (lines : Bool) : List Char → Option (List Char × List Char)
  | a :: rest =>
    if a ≠ quote then none
    else if !lines then some ([], rest)
    else match rest with
      | b :: c :: rest =>
        if b ≠ quote || c ≠ quote then none
        else match rest with
          | d :: e :: later =>
            if d = quote && e = quote then some ([quote, quote], later)
            else if d = quote then some ([quote], e :: later)
            else some ([], d :: e :: later)
          | [d] => if d = quote then some ([quote], []) else some ([], [d])
          | [] => some ([], [])
      | _ => none
  | [] => none

/-- Reads a string with escapes behind its opening quotes. -/
def basic? (lines : Bool) : Mode → List Char → Option (List Char × List Char)
  | _, [] => none
  | .text trimming, c :: rest =>
    if trimming && (isBlank c || c = '\n') then basic? lines (.text true) rest
    else match close? '"' lines (c :: rest) with
      | some r => some r
      | none =>
        if c = '"' then
          if lines then (basic? lines (.text false) rest).map (after ['"']) else none
        else if c = '\\' then basic? lines .escape rest
        else if isTextual c || (lines && c = '\n') then
          (basic? lines (.text false) rest).map (after [c])
        else none
  | .escape, c :: rest =>
    match escape? c, hexLength? c with
    | some e, _ => (basic? lines (.text false) rest).map (after [e])
    | none, some n => basic? lines (.hex n 0) rest
    | none, none =>
      if lines && c = '\n' then basic? lines (.text true) rest
      else if lines && isBlank c then basic? lines .lineEnd rest
      else none
  | .lineEnd, c :: rest =>
    if c = '\n' then basic? lines (.text true) rest
    else if isBlank c then basic? lines .lineEnd rest
    else none
  | .hex left value, c :: rest =>
    match digitValue? 16 c with
    | none => none
    | some d =>
      let value := value * 16 + d
      if 1 < left then basic? lines (.hex (left - 1) value) rest
      else match scalar? value with
        | some c => (basic? lines (.text false) rest).map (after [c])
        | none => none

/-- Reads a string without escapes behind its opening quotes. -/
def literal? (lines : Bool) : List Char → Option (List Char × List Char)
  | [] => none
  | c :: rest =>
    match close? '\'' lines (c :: rest) with
    | some r => some r
    | none =>
      if (isTextual c && (lines || c ≠ '\'')) || (lines && c = '\n') then
        (literal? lines rest).map (after [c])
      else none

/-- A line feed right behind opening quotes does not belong to the text. -/
def dropLine : List Char → List Char
  | '\n' :: rest => rest
  | rest => rest

/-- Reads a string of any of the four kinds. -/
def string? : List Char → Option (List Char × List Char)
  | '"' :: '"' :: '"' :: rest => basic? true (.text false) (dropLine rest)
  | '"' :: rest => basic? false (.text false) rest
  | '\'' :: '\'' :: '\'' :: rest => literal? true (dropLine rest)
  | '\'' :: rest => literal? false rest
  | _ => none

def isBare (c : Char) : Bool :=
  ('0' ≤ c && c ≤ '9') || ('A' ≤ c && c ≤ 'Z') || ('a' ≤ c && c ≤ 'z') || c = '_' || c = '-'

/-- One part of a key: bare, or a string on one line. -/
def keyPart? (cs : List Char) : Option (String × List Char) :=
  match cs with
  | '"' :: rest => (basic? false (.text false) rest).map fun (s, rest) => (String.ofList s, rest)
  | '\'' :: rest => (literal? false rest).map fun (s, rest) => (String.ofList s, rest)
  | _ =>
    let bare := cs.takeWhile isBare
    if bare.isEmpty then none else some (String.ofList bare, cs.dropWhile isBare)

/-- Keys have fewer parts and values nest less deep than this. -/
def maxDepth : Nat := 80

/-- The parts of a key with points between them. -/
def keyParts? : Nat → List Char → Option (List String × List Char)
  | 0, _ => none
  | fuel + 1, cs => do
    let (part, rest) ← keyPart? (skipBlanks cs)
    match skipBlanks rest with
    | '.' :: rest =>
      let (parts, rest) ← keyParts? fuel rest
      return (part :: parts, rest)
    | rest => return ([part], rest)

def key? (cs : List Char) : Option (List String × List Char) := keyParts? (maxDepth - 1) cs

end ServiceMaps.Toml
