import ServiceMaps.Toml.Reading

/-!
The settings of a workspace: which versions of documents may be loaded, and which version new
documents get. A list of versions that is empty allows every version.
-/
namespace ServiceMaps

structure Settings where
  allowedVersions : List String
  startVersion : String
  deriving DecidableEq, Repr

namespace Settings

def standard : Settings := ⟨[], "1.0"⟩

instance : Inhabited Settings := ⟨standard⟩

def allowOnly (versions : List String) (s : Settings) : Settings :=
  { s with allowedVersions := versions }

def allows (s : Settings) (version : String) : Bool :=
  s.allowedVersions.isEmpty || s.allowedVersions.contains version

def text? : Toml.Item → Option String
  | .text s => some s
  | _ => none

def texts? : Toml.Item → Option (List String)
  | .array items => items.mapM text?
  | .tables [] => some []
  | _ => none

/-- A setting, or its standard value if it is absent. -/
def setting? {α : Type} (read : Toml.Item → Option α) (standard : α) (name : String)
    (entries : Toml.Entries) : Option α :=
  match Toml.Entries.get? name entries with
  | none => some standard
  | some item => read item

/-- Reads settings; unknown ones are ignored. -/
def ofToml? (text : String) : Option Settings := do
  let entries ← Toml.tree? text
  let versions ← setting? texts? standard.allowedVersions "supported_versions" entries
  let version ← setting? text? standard.startVersion "default_version" entries
  return ⟨versions, version⟩

@[simp] theorem allows_standard (version : String) : standard.allows version = true := rfl

end Settings

end ServiceMaps
