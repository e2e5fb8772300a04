import ServiceMaps.Document.Basic
import ServiceMaps.Number.Shortest

/-!
From generic values to documents. Fields are found by name and may be left out or null where
there is a value to fall back on; fields that are not known are passed over, except in the
document itself, which keeps them. A part of a document may also be given as the list of its
field values in order. Only one failure has a text of its own: a score that is not whole.
-/
namespace ServiceMaps

/-- Why a value is not a document. -/
inductive Mismatch where
  | notWhole (x : Binary64)
  | other
  deriving DecidableEq, Repr

namespace Mismatch

def message? : Mismatch → Option String
  | .notWhole x => some ("expected an integer, found " ++ x.plainText)
  | .other => none

end Mismatch

namespace Reading

abbrev Read := Except Mismatch

def string : Value → Read String
  | .str s => .ok s
  | _ => .error .other

def boolean : Value → Read Bool
  | .bool b => .ok b
  | _ => .error .other

/-- A number as a floating number. -/
def number : Value → Read Binary64
  | .int n => .ok (.ofInt n)
  | .float x => .ok x
  | _ => .error .other

/-- A whole number of 32 bits, which may be written as a floating number. -/
def whole (v : Value) : Read Int := do
  let x ← number v
  match x.toInt? with
  | some n => if -(2 ^ 31) ≤ n && n ≤ 2 ^ 31 - 1 then return n else throw (.notWhole x)
  | none => throw (.notWhole x)

def list {α : Type} (read : Value → Read α) : Value → Read (List α)
  | .arr items => items.mapM read
  | _ => .error .other

def nullable {α : Type} (read : Value → Read α) : Value → Read (Option α)
  | .null => .ok none
  | v => some <$> read v

/-- Null stands for the value to fall back on. -/
def orElse {α : Type} (fallback : α) (read : Value → Read α) (v : Value) : Read α :=
  return (← nullable read v).getD fallback

/-- Reads a field if it is there. -/
def present {α : Type} (name : String) (read : Value → Read α) (fields : Fields) :
    Read (Option α) :=
  match fields.get? name with
  | none => .ok none
  | some v => some <$> read v

/-- Reads a field that must be there. -/
def required {α : Type} (name : String) (read : Value → Read α) (fields : Fields) : Read α :=
  match fields.get? name with
  | none => .error .other
  | some v => read v

/-- Reads a field that may be left out or null. -/
def optional {α : Type} (name : String) (read : Value → Read α) (fields : Fields) :
    Read (Option α) :=
  return (← present name (nullable read) fields).join

def withDefault {α : Type} (fallback : α) (name : String) (read : Value → Read α)
    (fields : Fields) : Read α :=
  return (← optional name read fields).getD fallback

/-- Reads a part of a document from its fields, or from their values in the order of `names`. -/
def part {α : Type} (names : List String) (read : Fields → Read α) : Value → Read α
  | .obj fields => read fields
  | .arr items =>
    if items.length ≤ names.length then read (names.zip items) else .error .other
  | _ => .error .other

def persona : Value → Read Persona :=
  part ["name"] fun fields => return ⟨← required "name" string fields⟩

def phase : Value → Read Phase :=
  part ["id", "name"] fun fields =>
    return ⟨← required "id" string fields, ← required "name" string fields⟩

/-- A journey action but for its score, which must be there. -/
def unscored (fields : Fields) : Read (Int → JourneyAction) := do
  let id ← required "id" string fields
  let name ← required "name" string fields
  let phase ← required "phase" string fields
  let touchpoints ← withDefault [] "touchpoints" (list string) fields
  let thoughtsFeelings ← withDefault [] "thoughts_feelings" (list string) fields
  return fun emotionScore => ⟨id, name, phase, touchpoints, thoughtsFeelings, emotionScore⟩

/-- A journey action. Among named fields the score is read first, in a list of values it is
the last. -/
def journeyAction : Value → Read JourneyAction
  | .obj fields => do
    let score ← present "emotion_score" whole fields
    let action ← unscored fields
    match score with
    | some n => return action n
    | none => throw .other
  | .arr items => do
    let names := ["id", "name", "phase", "touchpoints", "thoughts_feelings", "emotion_score"]
    let fields := names.zip items
    let action ← unscored fields
    let n ← required "emotion_score" whole fields
    if items.length ≤ names.length then return action n else throw .other
  | _ => .error .other

/-- Who acts in a lane: a name, or an object whose only field has that name and is empty. -/
def actor : Value → Read Actor
  | .str s => ofName s
  | .obj [(s, .null)] => ofName s
  | .obj [(s, .obj [])] => ofName s
  | _ => .error .other
where
  ofName (s : String) : Read Actor :=
    match Actor.ofText? s with
    | some k => .ok k
    | none => .error .other

def lane : Value → Read Lane :=
  part ["id", "name", "kind"] fun fields =>
    return ⟨← required "id" string fields, ← required "name" string fields,
      ← required "kind" actor fields⟩

def task : Value → Read BlueprintTask :=
  part ["id", "lane", "name", "source_id", "link_to", "readonly"] fun fields =>
    return ⟨← required "id" string fields, ← required "lane" string fields,
      ← required "name" string fields, ← optional "source_id" string fields,
      ← withDefault [] "link_to" (list string) fields,
      ← withDefault false "readonly" boolean fields⟩

def goal : Value → Read Goal :=
  part ["id", "name"] fun fields =>
    return ⟨← required "id" string fields, ← required "name" string fields⟩

/-- A success factor; its rationale may be left out but not null. -/
def factor : Value → Read SuccessFactor :=
  part ["id", "kgi_id", "source_id", "rationale"] fun fields =>
    return ⟨← required "id" string fields, ← required "kgi_id" string fields,
      ← optional "source_id" string fields, (← present "rationale" string fields).getD ""⟩

def indicator : Value → Read Indicator :=
  part ["id", "csf_id", "name", "definition", "unit", "target"] fun fields =>
    return ⟨← required "id" string fields, ← required "csf_id" string fields,
      ← required "name" string fields, ← optional "definition" string fields,
      ← optional "unit" string fields, ← required "target" number fields⟩

def enablementOutcome : Value → Read EnablementOutcome :=
  part ["id", "source_id"] fun fields =>
    return ⟨← required "id" string fields, ← required "source_id" string fields⟩

def enablementAction : Value → Read EnablementAction :=
  part ["id", "name", "source_id"] fun fields =>
    return ⟨← required "id" string fields, ← required "name" string fields,
      ← required "source_id" string fields⟩

def learning : Value → Read Learning :=
  part ["title", "url"] fun fields =>
    return ⟨← required "title" string fields, ← required "url" string fields⟩

def skill : Value → Read Skill :=
  part ["id", "name", "action_id", "learnings"] fun fields =>
    return ⟨← required "id" string fields, ← required "name" string fields,
      ← required "action_id" string fields, ← withDefault [] "learnings" (list learning) fields⟩

def resource : Value → Read Resource :=
  part ["id", "name", "action_id", "url"] fun fields =>
    return ⟨← required "id" string fields, ← required "name" string fields,
      ← required "action_id" string fields, ← required "url" string fields⟩

/-- The fields that a kind of document knows, besides its kind. -/
def known : Kind → List String
  | .journey => ["version", "id", "persona", "phases", "actions"]
  | .blueprint => ["version", "id", "lanes", "tasks"]
  | .outcome => ["version", "id", "kgi", "primary_csf", "primary_kpi"]
  | .enablement => ["version", "id", "outcomes", "actions", "skills", "knowledge", "tools"]

/-- The fields that a document keeps without knowing them. -/
def extra (k : Kind) (fields : Fields) : Fields := fields.excluding ("kind" :: known k)

/-- A journey map. Its actions are read first, so that their failures come first. -/
def journeyMap (fields : Fields) : Read JourneyMap := do
  let actions ← required "actions" (list journeyAction) fields
  return ⟨← required "version" string fields, ← required "id" string fields,
    ← optional "persona" persona fields, ← required "phases" (list phase) fields, actions,
    extra .journey fields⟩

def blueprint (fields : Fields) : Read Blueprint :=
  return ⟨← required "version" string fields, ← required "id" string fields,
    ← required "lanes" (list lane) fields, ← required "tasks" (list task) fields,
    extra .blueprint fields⟩

def outcome (fields : Fields) : Read Outcome :=
  return ⟨← required "version" string fields, ← required "id" string fields,
    ← required "kgi" goal fields, ← required "primary_csf" factor fields,
    ← required "primary_kpi" indicator fields, extra .outcome fields⟩

def enablementMap (fields : Fields) : Read EnablementMap :=
  return ⟨← required "version" string fields, ← required "id" string fields,
    ← required "outcomes" (list enablementOutcome) fields,
    ← required "actions" (list enablementAction) fields,
    ← withDefault [] "skills" (list skill) fields,
    ← withDefault [] "knowledge" (list resource) fields,
    ← withDefault [] "tools" (list resource) fields, extra .enablement fields⟩

end Reading

/-- Reads a document from a value that names its kind. -/
def Document.ofValue (v : Value) : Except Mismatch Document :=
  match v with
  | .obj fields =>
    match Fields.get? "kind" fields with
    | some (.str s) =>
      match Kind.ofText? s with
      | some .journey => .journey <$> Reading.journeyMap fields
      | some .blueprint => .blueprint <$> Reading.blueprint fields
      | some .outcome => .outcome <$> Reading.outcome fields
      | some .enablement => .enablement <$> Reading.enablementMap fields
      | none => .error .other
    | _ => .error .other
  | _ => .error .other

end ServiceMaps
