import ServiceMaps.Yaml.Source
import ServiceMaps.Number.Digits

/-!
Block scalars: indented lines below a header. The header says whether line breaks are kept or
folded, how much the lines are indented, and what becomes of the breaks at the end.
-/
namespace ServiceMaps.Yaml.Block

/-- What becomes of the breaks after the last line. -/
inductive Chomping where
  | strip | clip | keep
  deriving DecidableEq, Repr

/-- The header of a block scalar; indentation zero means that the text shows it. -/
structure Header where
  chomping : Chomping
  indentation : Nat
  deriving DecidableEq, Repr

def chomping? (c : Char) : Option Chomping :=
  if c = '+' then some .keep else if c = '-' then some .strip else none

def indentation? (c : Char) : Option Nat :=
  if isDecimalDigit c then some (c.toNat - '0'.toNat) else none

/-- The marks of a header, in either order, and what follows them. -/
def marks (s : Source) : Option Chomping × Option Nat × Source :=
  match s with
  | [] => (none, none, [])
  | p :: rest =>
    match chomping? p.char, indentation? p.char with
    | some chomping, _ =>
      match (rest.head?.bind fun q => indentation? q.char) with
      | some n => (some chomping, some n, rest.drop 1)
      | none => (some chomping, none, rest)
    | none, some n =>
      match (rest.head?.bind fun q => chomping? q.char) with
      | some chomping => (some chomping, some n, rest.drop 1)
      | none => (none, some n, rest)
    | none, none => (none, none, p :: rest)

def header? (s : Source) : Option (Header × Source) :=
  let (chomping, indentation, rest) := marks s
  if indentation = some 0 then none
  else (Source.endLine? rest).map fun rest =>
    (⟨chomping.getD .clip, indentation.getD 0⟩, rest)

/-- The breaks before the first line with text, and the widest indentation among them. -/
def leading : Nat → Source → Option (List Char × Nat × Source)
  | widest, [] => some ([], widest, [])
  | widest, p :: rest =>
    if p.char = ' ' then leading widest rest
    else if p.char = '\t' then none
    else if isBreak p.char then
      (leading (max widest p.column) rest).map fun (cs, w, s) => (p.char :: cs, w, s)
    else some ([], max widest p.column, p :: rest)

/-- What joins two lines of text: `first` is the break that ends the upper one and `later` are
the breaks after it. A single break between two lines that do not start with a blank folds. -/
def joint (folded : Bool) (first later : List Char) (upperBlank lowerBlank : Bool) : List Char :=
  if folded && first = ['\n'] && !upperBlank && !lowerBlank then
    (if later.isEmpty then [' '] else later)
  else first ++ later

/-- The lines of a block scalar: text up to the end of the last line, then the breaks at the
end. -/
structure Read where
  text : List Char
  first : List Char
  later : List Char
  rest : Source

def Read.after (before : List Char) (r : Read) : Read := { r with text := before ++ r.text }

/-- Reads lines of a known indentation. `inside` tells whether a line has started; `first` and
`later` are the breaks since the last one, which started with a blank if `upperBlank`. -/
def lines (folded : Bool) (indent : Nat) :
    (inside : Bool) → (first later : List Char) → (upperBlank : Bool) → Source → Option Read
  | _, first, later, _, [] => some ⟨[], first, later, []⟩
  | true, first, later, upperBlank, p :: rest =>
    if isBreak p.char then lines folded indent false [p.char] [] upperBlank rest
    else (lines folded indent true first later upperBlank rest).map (.after [p.char])
  | false, first, later, upperBlank, p :: rest =>
    if p.char = ' ' && p.column < indent then
      lines folded indent false first later upperBlank rest
    else if p.char = '\t' && p.column < indent then none
    else if isBreak p.char then
      lines folded indent false first (later ++ [p.char]) upperBlank rest
    else if p.column = indent then
      let blank := isBlank p.char
      (lines folded indent true [] [] blank rest).map
        (.after (joint folded first later upperBlank blank ++ [p.char]))
    else some ⟨[], first, later, p :: rest⟩

def chomp (chomping : Chomping) (r : Read) : List Char :=
  match chomping with
  | .strip => r.text
  | .clip => r.text ++ r.first
  | .keep => r.text ++ r.first ++ r.later

/-- Reads a block scalar behind its mark; `outer` is the column of the collection around it,
or -1. -/
def scan (folded : Bool) (outer : Int) (s : Source) : Option (List Char × Source) := do
  let (header, s) ← header? s
  let read ←
    if header.indentation = 0 then do
      let (breaks, widest, s) ← leading 0 s
      lines folded (max widest (max (outer + 1).toNat 1)) false [] breaks false s
    else lines folded ((max outer 0).toNat + header.indentation) false [] [] false s
  return (chomp header.chomping read, read.rest)

end ServiceMaps.Yaml.Block
