import ServiceMaps.Document.Writing
import ServiceMaps.Loading
import ServiceMaps.Yaml.Writing

/-!
A service map as one YAML text that holds a YAML document for each document of the map. Reading
passes over documents that name no kind, stops at the first that cannot be loaded, and lets a
later document take the place of an earlier one of its kind. Writing lists the documents in the
order of kinds.
-/
namespace ServiceMaps.ServiceMap

/-- Whether a value claims to be a document. -/
def namesKind (v : Value) : Bool := (v.get? "kind").isSome

/-- Adds one document of a text, the one at `index`, to a service map. -/
def addItem (settings : Settings) (index : Nat) (item : Option Value) (s : ServiceMap) :
    Except LoadError ServiceMap :=
  match item with
  | none => .error (.unreadableDocument index)
  | some v => if namesKind v then (s.insert ·) <$> Document.load settings v else .ok s

/-- Adds the documents of a text from `index` on. -/
def addItems (settings : Settings) : Nat → List (Option Value) → ServiceMap →
    Except LoadError ServiceMap
  | _, [], s => .ok s
  | index, item :: rest, s => addItem settings index item s >>= addItems settings (index + 1) rest

/-- The service map of the documents of a text; nothing stands for one that cannot be read. -/
def ofItems (settings : Settings) (items : List (Option Value)) : Except LoadError ServiceMap :=
  addItems settings 0 items empty

/-- Reads a service map from a text. -/
def ofText (settings : Settings) (text : String) : Except LoadError ServiceMap :=
  ofItems settings (Yaml.documents text)

/-- Ends the last line of a text. -/
def endLine (text : String) : String :=
  if text.toList.getLast? = some '\n' then text else text ++ "\n"

/-- Writes a service map as a text; no document at all is the empty text. -/
def text (s : ServiceMap) : String :=
  String.intercalate "---\n" (s.documents.map fun d => endLine (Yaml.write d.outline))

end ServiceMaps.ServiceMap
