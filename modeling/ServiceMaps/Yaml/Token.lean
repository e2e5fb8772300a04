import ServiceMaps.Yaml.Tag

/-!
The tokens of a YAML text. Block collections have no marks of their own in the text; their
tokens come from indentation.
-/
namespace ServiceMaps.Yaml

inductive Token where
  | directive (d : Directive)
  | documentStart
  | documentEnd
  | blockSequence
  | blockMapping
  | blockEnd
  | blockEntry
  | flowSequence
  | flowSequenceEnd
  | flowMapping
  | flowMappingEnd
  | flowEntry
  | key
  | value
  | alias (name : String)
  | anchor (name : String)
  | tag (t : TagSpelling)
  | scalar (text : String) (plain : Bool)
  /-- Stands last where the text stops being YAML. -/
  | invalid
  deriving DecidableEq, Repr

end ServiceMaps.Yaml
