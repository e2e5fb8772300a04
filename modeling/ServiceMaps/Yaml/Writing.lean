import ServiceMaps.Yaml.Style

/-!
Writing generic values as YAML in block form. Fields stand below each other, two columns
further right than the object around them; the items of a list stand at the column of the field
that holds it. What follows a dash starts on the dash's line. Only empty lists and objects are
written in brackets.
-/
namespace ServiceMaps.Yaml

namespace Writing

/-- The blanks before an entry at column `indent`, none if the entry shares the line of a dash. -/
def margin (indent : Nat) (onOwnLine : Bool) : List Char :=
  if onOwnLine then Style.spaces indent else []

mutual

/-- What follows a dash, or the colon of a long name, at column `indent`. -/
def afterDash (indent : Nat) : Value → List Char
  | .null => " null\n".toList
  | .bool b => (if b then " true\n" else " false\n").toList
  | .int n => ' ' :: (toString n).toList ++ ['\n']
  | .float x => ' ' :: x.yamlText.toList ++ ['\n']
  | .str s => ' ' :: Style.write (indent + 2) s
  | .arr items => ' ' :: if items.isEmpty then "[]\n".toList else itemsFrom (indent + 2) false items
  | .obj fields =>
    ' ' :: if fields.isEmpty then "\x7b\x7d\n".toList else fieldsFrom (indent + 2) false fields

/-- What follows the colon of a name at column `indent`. -/
def afterName (indent : Nat) : Value → List Char
  | .null => " null\n".toList
  | .bool b => (if b then " true\n" else " false\n").toList
  | .int n => ' ' :: (toString n).toList ++ ['\n']
  | .float x => ' ' :: x.yamlText.toList ++ ['\n']
  | .str s => ' ' :: Style.write (indent + 2) s
  | .arr items => if items.isEmpty then " []\n".toList else '\n' :: itemsFrom indent true items
  | .obj fields =>
    if fields.isEmpty then " \x7b\x7d\n".toList else '\n' :: fieldsFrom (indent + 2) true fields

/-- Items whose dashes stand at column `indent`. -/
def itemsFrom (indent : Nat) (onOwnLine : Bool) : List Value → List Char
  | [] => []
  | v :: rest =>
    margin indent onOwnLine ++ '-' :: afterDash indent v ++ itemsFrom indent true rest

/-- Fields at column `indent`. A long name has lines of its own, and its value is laid out as
behind a dash. -/
def fieldsFrom (indent : Nat) (onOwnLine : Bool) : List (String × Value) → List Char
  | [] => []
  | (name, v) :: rest =>
    margin indent onOwnLine
      ++ (if Style.isSimpleKey name then Style.writeKey name ++ ':' :: afterName indent v
        else
          '?' :: ' ' :: Style.write (indent + 2) name
            ++ Style.spaces indent ++ ':' :: afterDash indent v)
      ++ fieldsFrom indent true rest

end

end Writing

/-- A document as YAML; an object without fields is written in brackets. -/
def write (fields : List (String × Value)) : String :=
  String.ofList (if fields.isEmpty then "\x7b\x7d\n".toList else Writing.fieldsFrom 0 true fields)

end ServiceMaps.Yaml
