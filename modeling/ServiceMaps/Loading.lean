import ServiceMaps.Document.Reading
import ServiceMaps.Document.Inspection
import ServiceMaps.Json.Reading
import ServiceMaps.Yaml.Stream

/-!
Loading one document from a text. The text is read as a generic value, the value must name its
kind and have the form of that kind, and only then is it turned into a document.
-/
namespace ServiceMaps

/-- The languages that a document may be written in. -/
inductive Format where
  | yaml
  | json
  | toml
  deriving DecidableEq, Repr

namespace Format

/-- The format of a file by its extension, in upper or lower case. -/
def ofExtension? (extension : String) : Option Format :=
  match String.ofList (extension.toList.map Char.toLower) with
  | "yaml" | "yml" => some .yaml
  | "json" => some .json
  | "toml" => some .toml
  | _ => none

end Format

/-- Why a text could not be loaded. -/
inductive LoadError where
  | unreadable
  | unreadableDocument (index : Nat)
  | severalDocuments
  | unknownKind (text : String)
  | invalid (kind : Kind) (flaws : List Flaw)
  | mismatch (m : Mismatch)
  deriving DecidableEq, Repr

namespace LoadError

/-- What is said about an error, unless it is left to the reader of the text. -/
def message? : LoadError → Option String
  | .unreadable | .unreadableDocument _ | .mismatch _ => none
  | .severalDocuments =>
    some "DSL parse error: expected a single YAML document; use decode for document sets"
  | .unknownKind text => some ("Unknown document kind: " ++ text)
  | .invalid kind flaws =>
    some ("Schema validation failed for " ++ kind.text ++ " document: "
      ++ String.intercalate "; " (flaws.map Flaw.text))

end LoadError

/-- Reads a text as one generic value. A YAML text must hold a single document. -/
def Value.ofText (format : Format) (text : String) : Except LoadError Value :=
  match format with
  | .json => (Json.read? text).elim (.error .unreadable) .ok
  | .toml => (Toml.read? text).elim (.error .unreadable) .ok
  | .yaml =>
    match Yaml.documents text with
    | [] => .ok .null
    | [some v] => .ok v
    | none :: _ => .error .unreadable
    | some _ :: _ :: _ => .error .severalDocuments

namespace Document

/-- Turns a value into a document if it is valid for the kind that it names. -/
def load (settings : Settings) (v : Value) : Except LoadError Document :=
  match namedKind v with
  | .error text => .error (.unknownKind text)
  | .ok kind =>
    let report := inspect settings kind v
    if report.valid then (Document.ofValue v).mapError .mismatch
    else .error (.invalid kind report.flaws)

/-- Loads a document from a text. -/
def ofText (settings : Settings) (format : Format) (text : String) : Except LoadError Document :=
  Value.ofText format text >>= load settings

end Document

end ServiceMaps
