import ServiceMaps.Yaml.Token
import ServiceMaps.Yaml.Scalar.Plain
import ServiceMaps.Yaml.Scalar.Quoted
import ServiceMaps.Yaml.Scalar.Block

/-!
From characters to tokens. Two things are not local: indentation opens and closes block
collections, and a key is known to be one only when its colon comes, so that the tokens in
front of it are put in afterwards. `Layout` holds what is needed for both: the columns of the
open block collections, and for each open flow collection the last place where a key might
have started. `Layout.step` reads one token.
-/
namespace ServiceMaps.Yaml

/-- A place where a key may have started: how many tokens came before it, and where it stands. -/
structure PossibleKey where
  /-- At the column of the enclosing block collection only a key may stand. -/
  required : Bool
  before : Nat
  line : Nat
  column : Nat
  deriving DecidableEq, Repr

namespace PossibleKey

/-- A key stays on one line and has no more than 1024 characters before its colon. -/
def expired (p : Placed) (k : PossibleKey) : Bool := k.line < p.line || k.column + 1024 < p.column

end PossibleKey

structure Layout where
  /-- The tokens so far, the last one first. -/
  emitted : List Token
  /-- The columns of the open block collections, the innermost first. -/
  columns : List Nat
  /-- The possible key of the innermost collection. -/
  key : Option PossibleKey
  /-- The possible keys around the open flow collections, the innermost first. -/
  outer : List (Option PossibleKey)
  /-- Whether a key may start at the next token. -/
  keyAllowed : Bool
  deriving Repr

namespace Layout

def start : Layout := ⟨[], [], none, [], true⟩

def inFlow (l : Layout) : Bool := !l.outer.isEmpty

/-- The column of the innermost block collection, -1 outside of all. -/
def indent (l : Layout) : Int := match l.columns with
  | [] => -1
  | c :: _ => c

def emit (t : Token) (l : Layout) : Layout := { l with emitted := t :: l.emitted }

def allowKey (b : Bool) (l : Layout) : Layout := { l with keyAllowed := b }

/-- Puts a token behind the first `before` tokens. -/
def insert (before : Nat) (t : Token) (l : Layout) : Layout :=
  { l with emitted := l.emitted.insertIdx (l.emitted.length - before) t }

/-- Gives up the possible key of the innermost collection, which must not be a required one. -/
def dropKey? (l : Layout) : Option Layout :=
  if l.key.any (·.required) then none else some { l with key := none }

/-- Notes that a key may start here. -/
def noteKey? (p : Placed) (l : Layout) : Option Layout :=
  if l.keyAllowed then
    l.dropKey?.map fun l =>
      { l with key := some ⟨!l.inFlow && l.indent == p.column, l.emitted.length, p.line, p.column⟩ }
  else some l

/-- Gives up the possible keys that are too far back. -/
def expire? (p : Placed) (l : Layout) : Option Layout :=
  let late (k : Option PossibleKey) : Bool := k.any fun k => k.expired p && k.required
  if late l.key || l.outer.any late then none
  else
    let keep (k : Option PossibleKey) : Option PossibleKey := k.filter fun k => !k.expired p
    some { l with key := keep l.key, outer := l.outer.map keep }

/-- Closes the block collections that stand to the right of a column. -/
def closeColumns (column : Int) : List Nat → List Token → List Nat × List Token
  | [], emitted => ([], emitted)
  | c :: rest, emitted =>
    if column < c then closeColumns column rest (.blockEnd :: emitted) else (c :: rest, emitted)

def unroll (column : Int) (l : Layout) : Layout :=
  if l.inFlow then l
  else
    let (columns, emitted) := closeColumns column l.columns l.emitted
    { l with columns, emitted }

/-- Opens a block collection at a column, unless one is open there or further right. -/
def roll (column before : Nat) (t : Token) (l : Layout) : Layout :=
  if !l.inFlow && l.indent < column then { l.insert before t with columns := column :: l.columns }
  else l

/-- Opens a block collection for the entry that comes next, where one may stand. -/
def rollHere? (p : Placed) (t : Token) (l : Layout) : Option Layout :=
  if l.inFlow then some l
  else if l.keyAllowed then some (l.roll p.column l.emitted.length t)
  else none

/-- Passes over blanks, comments and line breaks. Tabs count as blanks where no indentation is
expected, and a byte order mark does at the start of a line; outside of flow collections a key
may start on a new line. -/
def skipToToken (flow : Bool) : (comment allowed : Bool) → Source → Bool × Source
  | _, allowed, [] => (allowed, [])
  | comment, allowed, p :: rest =>
    if isBreak p.char then skipToToken flow false (allowed || !flow) rest
    else if comment then skipToToken flow true allowed rest
    else if p.char = ' ' || ((flow || !allowed) && p.char = '\t')
        || (p.column = 0 && p.char = '\ufeff') then
      skipToToken flow false allowed rest
    else if p.char = '#' then skipToToken flow true allowed rest
    else (allowed, p :: rest)

/-- The characters that cannot start a plain scalar. -/
def isIndicator (c : Char) : Bool := "-?:,[]\x7b\x7d#&*!|>'\"%@`".toList.contains c

/-- The characters besides gaps that may follow an anchor or alias. -/
def endsAnchor (c : Char) : Bool := "?:,]\x7d%@`".toList.contains c

def anchorName? (s : Source) : Option (String × Source) :=
  let (name, rest) := s.run isWord
  if name.isEmpty || !(rest.atGap || rest.nextIs endsAnchor) then none
  else some (String.ofList name, rest)

/-- A token of a line of its own, which closes every block collection. -/
def lineToken? (t : Token) (l : Layout) : Option Layout :=
  (l.unroll (-1)).dropKey?.map fun l => (l.allowKey false).emit t

def openFlow? (p : Placed) (t : Token) (l : Layout) : Option Layout :=
  (l.noteKey? p).map fun l =>
    ({ l with key := none, outer := l.key :: l.outer }.allowKey true).emit t

def closeFlow? (t : Token) (l : Layout) : Option Layout :=
  l.dropKey?.map fun l =>
    let l := match l.outer with
      | [] => l
      | key :: outer => { l with key, outer }
    (l.allowKey false).emit t

def flowEntry? (l : Layout) : Option Layout :=
  l.dropKey?.map fun l => (l.allowKey true).emit .flowEntry

def blockEntry? (p : Placed) (l : Layout) : Option Layout := do
  let l ← l.rollHere? p .blockSequence
  let l ← l.dropKey?
  return (l.allowKey true).emit .blockEntry

def explicitKey? (p : Placed) (l : Layout) : Option Layout := do
  let l ← l.rollHere? p .blockMapping
  let l ← l.dropKey?
  return (l.allowKey !l.inFlow).emit .key

/-- A colon. After a possible key it makes it one; else it follows an explicit key. -/
def value? (p : Placed) (l : Layout) : Option Layout :=
  match l.key with
  | some k =>
    let l := (l.insert k.before .key).roll k.column k.before .blockMapping
    some (({ l with key := none }.allowKey false).emit .value)
  | none =>
    (l.rollHere? p .blockMapping).map fun l => (l.allowKey !l.inFlow).emit .value

/-- A token that may be a key or begin one. -/
def content? (p : Placed) (t : Token) (l : Layout) : Option Layout :=
  (l.noteKey? p).map fun l => (l.allowKey false).emit t

def scalar (text : List Char) (plain : Bool) : Token := .scalar (String.ofList text) plain

/-- Reads the token that starts with the character `p`. -/
def step (l : Layout) (p : Placed) (rest : Source) : Option (Layout × Source) :=
  let s : Source := p :: rest
  let c := p.char
  if p.column = 0 && c = '%' then do
    let (d, rest) ← Directive.read? rest
    return (← l.lineToken? (.directive d), rest)
  else if p.column = 0 && s.atMarker '-' then do
    return (← l.lineToken? .documentStart, s.drop 3)
  else if p.column = 0 && s.atMarker '.' then do
    return (← l.lineToken? .documentEnd, s.drop 3)
  else if c = '[' then do return (← l.openFlow? p .flowSequence, rest)
  else if c = '\x7b' then do return (← l.openFlow? p .flowMapping, rest)
  else if c = ']' then do return (← l.closeFlow? .flowSequenceEnd, rest)
  else if c = '\x7d' then do return (← l.closeFlow? .flowMappingEnd, rest)
  else if c = ',' then do return (← l.flowEntry?, rest)
  else if c = '-' && rest.atGap then do return (← l.blockEntry? p, rest)
  else if c = '?' && (l.inFlow || rest.atGap) then do return (← l.explicitKey? p, rest)
  else if c = ':' && (l.inFlow || rest.atGap) then do return (← l.value? p, rest)
  else if c = '*' then do
    let (name, rest) ← anchorName? rest
    return (← l.content? p (.alias name), rest)
  else if c = '&' then do
    let (name, rest) ← anchorName? rest
    return (← l.content? p (.anchor name), rest)
  else if c = '!' then do
    let (t, rest) ← TagSpelling.read? l.inFlow s
    return (← l.content? p (.tag t), rest)
  else if (c = '|' || c = '>') && !l.inFlow then do
    let (text, rest) ← Block.scan (c = '>') l.indent rest
    let l ← l.dropKey?
    return ((l.allowKey true).emit (scalar text false), rest)
  else if c = '\'' || c = '"' then do
    let (text, rest) ← Quoted.scan c .text .empty rest
    return (← l.content? p (scalar text false), rest)
  else if !(s.atGap || isIndicator c) || c = '-' || (!l.inFlow && (c = '?' || c = ':')) then do
    let r ← Plain.scan l.inFlow (l.indent + 1).toNat .empty s
    let l ← l.content? p (scalar r.text true)
    return (l.allowKey r.broken, r.rest)
  else none

/-- The tokens in the order of the text; the mark of invalid text stands last where it is so. -/
def finish (l : Layout) : List Token :=
  ((l.dropKey?.map (unroll (-1))).getD (l.emit .invalid)).emitted.reverse

/-- The tokens in the order of the text, which is invalid from here on. -/
def broken (l : Layout) : List Token := (l.emit .invalid).emitted.reverse

/-- Reads tokens to the end of the source; every token takes at least one character. -/
def run : Nat → Layout → Source → List Token
  | 0, l, _ => l.broken
  | fuel + 1, l, s =>
    let (allowed, s) := skipToToken l.inFlow false l.keyAllowed s
    let l := l.allowKey allowed
    match s with
    | [] => l.finish
    | p :: rest =>
      match (l.expire? p).map (unroll p.column) with
      | none => l.broken
      | some l =>
        match l.step p rest with
        | none => l.broken
        | some (l, s) => run fuel l s

end Layout

/-- The tokens of a text. -/
def tokens (text : String) : List Token :=
  match Source.ofText? text with
  | none => [.invalid]
  | some s => Layout.start.run (s.length + 1) s

end ServiceMaps.Yaml
