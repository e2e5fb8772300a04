import ServiceMaps.Yaml.Layout
import ServiceMaps.Yaml.Datum

/-!
A YAML text as a stream of documents. Only the first document may start without a mark.
`documents` lists what can be read in order; a document that cannot be read ends the list
with `none`. A text without any document counts as one that says null.
-/
namespace ServiceMaps.Yaml

namespace Stream

/-- Reads the directives before a document: at most one version, which must be 1.1 or 1.2, and
each handle once. -/
def directives? (version : Bool) (handles : Node.Handles) :
    List Token → Option (Node.Handles × List Token)
  | .directive (.version major minor) :: rest =>
    if version || major ≠ 1 || (minor ≠ 1 && minor ≠ 2) then none
    else directives? true handles rest
  | .directive (.handle name start) :: rest =>
    if handles.any (·.1 = name) then none
    else directives? version (handles ++ [(name, start)]) rest
  | tokens => some (handles, tokens)

/-- Whether a document needs no mark to start here. -/
def startsBare : List Token → Bool
  | [] | .directive _ :: _ | .documentStart :: _ => false
  | _ => true

/-- Whether a document ends right behind its mark. -/
def isEmpty : List Token → Bool
  | [] | .directive _ :: _ | .documentStart :: _ | .documentEnd :: _ => true
  | _ => false

/-- Ends a document, at its mark or where something else begins. -/
def endDocument? : List Token → Option (List Token)
  | .documentEnd :: rest => some rest
  | .invalid :: _ => none
  | rest => some rest

/-- Reads one document and passes over its end. -/
def document? (first : Bool) (tokens : List Token) : Option (Node × List Token) := do
  let (node, rest) ←
    if first && startsBare tokens then Node.ofTokens? standardHandles tokens
    else do
      let (handles, tokens) ← directives? false [] tokens
      match tokens with
      | .documentStart :: rest =>
        if isEmpty rest then some (.absent, rest)
        else Node.ofTokens? (handles ++ standardHandles) rest
      | _ => none
  return (node, ← endDocument? rest)

/-- The documents of a stream of tokens; every document takes at least one token. -/
def nodes (first : Bool) : Nat → List Token → List (Option Node)
  | 0, _ => []
  | fuel + 1, tokens =>
    match if first then tokens else tokens.dropWhile (· = .documentEnd) with
    | [] => []
    | tokens =>
      match document? first tokens with
      | none => [none]
      | some (n, rest) => some n :: nodes false fuel rest

/-- Cuts a list behind its first `none`. -/
def untilNone {α : Type} : List (Option α) → List (Option α)
  | [] => []
  | none :: _ => [none]
  | some a :: rest => some a :: untilNone rest

end Stream

/-- The documents of a text as trees. -/
def nodes (text : String) : List (Option Node) :=
  match tokens text with
  | [] => [some .absent]
  | tokens => Stream.nodes true (tokens.length + 1) tokens

/-- The documents of a text with types. -/
def data (text : String) : List (Option Datum) :=
  Stream.untilNone ((nodes text).map fun n => n.bind Datum.ofDocument?)

/-- The documents of a text as generic values. -/
def documents (text : String) : List (Option Value) :=
  (data text).map fun d => d.map Datum.toValue

end ServiceMaps.Yaml
