import ServiceMaps.Settings
import ServiceMaps.Document.Form
import ServiceMaps.Value.Text

/-!
Checking a generic value against the form of a document. The report lists every place that
breaks the form, in the order of the field tables; what lies below such a place is not looked
at. A field that is null counts as absent. Whole numbers may be written as floating numbers.
-/
namespace ServiceMaps

/-- One step into a value. -/
inductive Step where
  | field (name : String)
  | index (i : Nat)
  deriving DecidableEq, Repr

/-- A place in a value, from the outside to the inside. -/
abbrev Path := List Step

namespace Path

/-- Adds one step to the text of a path. -/
def extend (path : String) : Step → String
  | .field name => if path.isEmpty then name else path ++ "." ++ name
  | .index i => path ++ "[" ++ toString i ++ "]"

/-- Member names with points between them, indexes in brackets; nothing for the whole value. -/
def text (path : Path) : String := path.foldl extend ""

/-- The value at a place. -/
def follow? : Path → Value → Option Value
  | [], v => some v
  | .field name :: path, v => (v.get? name).bind (follow? path)
  | .index i :: path, .arr items => items[i]?.bind (follow? path)
  | .index _ :: _, _ => none

end Path

/-- What is wrong at a place. -/
inductive Problem where
  | missing
  | notString
  | notInteger
  | below (least : Int)
  | above (greatest : Int)
  | notNumber
  | notBoolean
  | notConstant (text : String)
  | notChoice (texts : List String)
  | notList
  | notRecord
  | otherVersion (version : String) (supported : List String)
  | unknownKind (text : String)
  deriving DecidableEq, Repr

namespace Problem

def message : Problem → String
  | .missing => "is required"
  | .notString => "must be a string"
  | .notInteger => "must be an integer"
  | .below least => "must be >= " ++ toString least
  | .above greatest => "must be <= " ++ toString greatest
  | .notNumber => "must be a number"
  | .notBoolean => "must be a boolean"
  | .notConstant text => "must be equal to '" ++ text ++ "'"
  | .notChoice texts => "must be one of: " ++ String.intercalate ", " texts
  | .notList => "must be an array"
  | .notRecord => "must be an object"
  | .otherVersion version supported =>
    "unsupported version '" ++ version ++ "', supported versions: "
      ++ String.intercalate ", " supported
  | .unknownKind text => "Unknown document kind: " ++ text

end Problem

/-- A problem and its place. -/
structure Flaw where
  path : Path
  problem : Problem
  deriving DecidableEq, Repr

namespace Flaw

/-- The place, or a word for the whole value, and what is wrong there. -/
def text (v : Flaw) : String :=
  let path := v.path.text
  (if path.isEmpty then "(root)" else path) ++ ": " ++ v.problem.message

end Flaw

namespace Form

/-- The whole number that a value stands for. -/
def integer? : Value → Option Int
  | .int n => some n
  | .float x => x.toInt?
  | _ => none

mutual

/-- The places in a value, found at `path`, that break a form. -/
def flaws (path : Path) : Form → Value → List Flaw
  | .string, v => match v with
    | .str _ => []
    | _ => [⟨path, .notString⟩]
  | .integer least greatest, v => match integer? v with
    | none => [⟨path, .notInteger⟩]
    | some n =>
      if n < least then [⟨path, .below least⟩]
      else if greatest < n then [⟨path, .above greatest⟩]
      else []
  | .number, v => if v.isNumber then [] else [⟨path, .notNumber⟩]
  | .boolean, v => match v with
    | .bool _ => []
    | _ => [⟨path, .notBoolean⟩]
  | .constant text, v => if v = .str text then [] else [⟨path, .notConstant text⟩]
  | .choice texts, v => match v with
    | .str s => if texts.contains s then [] else [⟨path, .notChoice texts⟩]
    | _ => [⟨path, .notChoice texts⟩]
  | .list item, v => match v with
    | .arr items =>
      items.zipIdx.flatMap fun (w, i) => flaws (path ++ [.index i]) item w
    | _ => [⟨path, .notList⟩]
  | .record fields, v => match v with
    | .obj entries => memberFlaws path fields entries
    | _ => [⟨path, .notRecord⟩]

def memberFlaws (path : Path) : List (Member Form) → Fields → List Flaw
  | [], _ => []
  | ⟨name, required, form⟩ :: rest, entries =>
    (match entries.get? name with
      | none | some .null => if required then [⟨path ++ [.field name], .missing⟩] else []
      | some v => flaws (path ++ [.field name]) form v)
      ++ memberFlaws path rest entries

end

end Form

/-- The problem of a version that the settings do not allow. -/
def versionFlaws (settings : Settings) (v : Value) : List Flaw :=
  match v.get? "version" with
  | some (.str version) =>
    if settings.allows version then []
    else [⟨[.field "version"], .otherVersion version settings.allowedVersions⟩]
  | _ => []

/-- What inspection says of a value: the kind it was held to, and all flaws. -/
structure Report where
  kind : Option Kind
  flaws : List Flaw
  deriving DecidableEq, Repr

namespace Report

def valid (r : Report) : Bool := r.flaws.isEmpty

end Report

/-- Holds a value to the form of one kind of document. -/
def inspect (settings : Settings) (k : Kind) (v : Value) : Report :=
  ⟨some k, Form.flaws [] (.record (Form.document k)) v ++ versionFlaws settings v⟩

/-- The kind that a value names; else the text of what stands in its place. -/
def namedKind (v : Value) : Except String Kind :=
  match v.get? "kind" with
  | some (.str s) => match Kind.ofText? s with
    | some k => .ok k
    | none => .error s
  | some other => .error other.jsonText
  | none => .error "(missing)"

/-- Holds a value to the form of the kind that it names. -/
def inspectNamed (settings : Settings) (v : Value) : Report :=
  match namedKind v with
  | .ok k => inspect settings k v
  | .error text => ⟨none, [⟨[.field "kind"], .unknownKind text⟩]⟩

end ServiceMaps
