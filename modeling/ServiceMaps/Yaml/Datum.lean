import ServiceMaps.Yaml.Node
import ServiceMaps.Value.Basic
import ServiceMaps.Number.Literal
import ServiceMaps.Number.Shortest

/-!
What a YAML document says once its scalars have types and its aliases are followed. Mappings
keep their entries in the order of the text, with the types of their keys; `Datum.toValue`
forgets both, because the fields of a generic value are texts in alphabetical order.
-/
namespace ServiceMaps.Yaml

/-- The scalars that may be keys. -/
inductive Key where
  | bool (b : Bool)
  | int (n : Int)
  | float (x : Binary64)
  | str (s : String)
  deriving DecidableEq, Repr

namespace Key

/-- Equality of keys; floating numbers are compared as numbers, and a floating number never
equals a whole one. -/
def same : Key → Key → Bool
  | .float x, .float y => x.same y
  | a, b => a == b

/-- The name of the field that a key becomes. -/
def text : Key → String
  | .bool b => if b then "true" else "false"
  | .int n => toString n
  | .float x => x.jsonText
  | .str s => s

end Key

inductive Datum where
  | null
  | bool (b : Bool)
  | int (n : Int)
  | float (x : Binary64)
  | str (s : String)
  | seq (items : List Datum)
  | map (entries : List (Key × Datum))
  | tagged (name : String) (content : Datum)
  deriving Inhabited

namespace Datum

def isNullWord (s : String) : Bool := s = "null" || s = "Null" || s = "NULL" || s = "~"

def truth? (s : String) : Option Bool :=
  if s = "true" || s = "True" || s = "TRUE" then some true
  else if s = "false" || s = "False" || s = "FALSE" then some false
  else none

def dropSign : List Char → List Char
  | '-' :: cs => cs
  | '+' :: cs => cs
  | cs => cs

/-- Digits that start with a needless zero are text. -/
def isPadded (cs : List Char) : Bool :=
  let digits := dropSign cs
  1 < digits.length && digits.head? = some '0' && digits.all isDecimalDigit

/-- The digits of an unsigned number with a mark of its base, or decimal. -/
def magnitude? : List Char → Option Nat
  | '0' :: 'x' :: cs => whole? 16 cs
  | '0' :: 'o' :: cs => whole? 8 cs
  | '0' :: 'b' :: cs => whole? 2 cs
  | cs => if isPadded cs then none else whole? 10 cs

def whole? (s : String) : Option Int :=
  match s.toList with
  | '-' :: cs => (magnitude? cs).map fun n => -(n : Int)
  | '+' :: cs => (magnitude? cs).map fun n => (n : Int)
  | cs => (magnitude? cs).map fun n => (n : Int)

/-- Whether a whole number fits a word: unsigned, or signed if it is negative. -/
def fits (bits : Nat) (n : Int) : Bool := -(2 ^ (bits - 1) : Int) ≤ n && n < (2 ^ bits : Int)

def isInfinityWord (s : String) : Bool := s = ".inf" || s = ".Inf" || s = ".INF"

/-- A floating number: a decimal numeral in range, or a word for what is not finite. -/
def float? (s : String) : Option Binary64 :=
  if isInfinityWord s || s = "+.inf" || s = "+.Inf" || s = "+.INF" then some (.infinite false)
  else if s = "-.inf" || s = "-.Inf" || s = "-.INF" then some (.infinite true)
  else if s = ".nan" || s = ".NaN" || s = ".NAN" then some .nan
  else ((Literal.read? s.toList).map Literal.value).filter Binary64.isFinite

/-- Reads a plain scalar: null, a truth value, a whole number, a floating number or a text. A
whole number too great for 64 bits is read as a floating number, unless it fits 128 bits: such
a number is refused. -/
def ofPlain? (s : String) : Option Datum :=
  if s = "" || isNullWord s then some .null
  else match truth? s with
    | some b => some (.bool b)
    | none =>
      match (whole? s).filter (fits 128) with
      | some n => if fits 64 n then some (.int n) else none
      | none =>
        if isPadded s.toList then some (.str s)
        else match float? s with
          | some x => some (.float x)
          | none => some (.str s)

/-- Reads a scalar without regard to a local tag. -/
def ofUntagged? (text : String) (plain : Bool) : Option Datum :=
  if plain then ofPlain? text else some (.str text)

/-- Reads a scalar under a tag that is not local: the core types are enforced, and any other
tag makes the scalar a text. -/
def ofTagged? (tag : Tag) (text : String) (plain : Bool) : Option Datum :=
  if tag = .boolean then (truth? text).map .bool
  else if tag = .integer then ((whole? text).filter (fits 64)).map .int
  else if tag = .float then (float? text).map .float
  else if tag = .null then (if isNullWord text then some .null else none)
  else if tag.isLocal then ofUntagged? text plain
  else some (.str text)

/-- The local tag of a node. -/
def localTag? (tag : Option Tag) : Option String := tag.bind Tag.localName?

/-- Puts the content under its local tag, if it has one. -/
def underTag (tag : Option Tag) (content : Datum) : Datum :=
  match localTag? tag with
  | some name => .tagged name content
  | none => content

def ofScalar? (tag : Option Tag) (text : String) (plain : Bool) : Option Datum :=
  match tag, localTag? tag with
  | some _, some name => (ofUntagged? text plain).map (.tagged name)
  | some t, none => ofTagged? t text plain
  | none, _ => ofUntagged? text plain

/-- The key that a scalar makes; floating keys must be finite. -/
def key? : Datum → Option Key
  | .bool b => some (.bool b)
  | .int n => some (.int n)
  | .float x => if x.isFinite then some (.float x) else none
  | .str s => some (.str s)
  | _ => none

/-- The entries of a mapping whose keys are scalars and all different. -/
def entries? : List (Datum × Datum) → Option (List (Key × Datum))
  | [] => some []
  | (k, v) :: rest => do
    let key ← k.key?
    let entries ← entries? rest
    if entries.any (·.1.same key) then none else return (key, v) :: entries

/-- The nodes that aliases stand for; of two with one number the later. -/
abbrev Anchors := List (Nat × Node)

/-- Uses up one alias. -/
def follow : StateT Nat Option Unit := fun left => if left = 0 then none else some ((), left - 1)

/-- The node that an alias stands for, and any other node itself. -/
def target (anchors : Anchors) : Node → StateT Nat Option Node
  | .alias number => do
    follow
    match anchors.reverse.lookup number with
    | some n => return n
    | none => failure
  | n => return n

/-- Gives a node its types, where `inner` does so for the nodes in a collection. -/
def ofContent? (inner : Node → StateT Nat Option Datum) : Node → StateT Nat Option Datum
  | .scalar _ tag text plain => ofScalar? tag text plain
  | .sequence _ tag items => return underTag tag (.seq (← items.mapM inner))
  | .mapping _ tag entries => do
    let read ← entries.mapM fun (k, v) => do return (← inner k, ← inner v)
    return underTag tag (.map (← entries? read))
  | .alias _ => failure

/-- Gives a node its types where no collection may stand. -/
def ofLeaf? : Node → StateT Nat Option Datum
  | .scalar _ tag text plain => ofScalar? tag text plain
  | _ => failure

/-- Gives a node its types. Collections may be nested `depth` deep, aliases included, and the
state is the number of aliases that may still be followed. -/
def ofNode? (anchors : Anchors) : (depth : Nat) → Node → StateT Nat Option Datum
  | 0, n => do ofLeaf? (← target anchors n)
  | depth + 1, n => do ofContent? (ofNode? anchors depth) (← target anchors n)

/-- Collections nest at most this deep. -/
def maxDepth : Nat := 128

/-- Reads a document; the aliases that may be followed are limited by its size. -/
def ofDocument? (n : Node) : Option Datum :=
  (ofNode? n.anchored maxDepth n (100 * n.size)).map (·.1)

mutual

/-- The generic value of a datum. A tag becomes the only field of an object, and a number that
is not finite becomes null. -/
def toValue : Datum → Value
  | .null => .null
  | .bool b => .bool b
  | .int n => .int n
  | .float x => if x.isFinite then .float x else .null
  | .str s => .str s
  | .seq items => .arr (toValues items)
  | .map entries => .obj (Fields.ofEntries (toFields entries))
  | .tagged name content => .obj [("!" ++ name, toValue content)]

def toValues : List Datum → List Value
  | [] => []
  | d :: rest => toValue d :: toValues rest

def toFields : List (Key × Datum) → List (String × Value)
  | [] => []
  | (k, d) :: rest => (k.text, toValue d) :: toFields rest

end

end Datum

end ServiceMaps.Yaml
