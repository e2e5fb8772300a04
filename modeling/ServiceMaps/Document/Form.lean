import ServiceMaps.Kind
import ServiceMaps.Value.Basic

/-!
The form of a valid document: for every kind a table of fields, each with a form and whether
it must be there. Fields that no table lists are allowed everywhere.
-/
namespace ServiceMaps

/-- A field of an object whose form is of type `σ`. -/
structure Member (σ : Type) where
  name : String
  required : Bool
  form : σ
  deriving Repr

inductive Form where
  | string
  | integer (least greatest : Int)
  | number
  | boolean
  /-- One fixed text. -/
  | constant (text : String)
  /-- One of several texts. -/
  | choice (texts : List String)
  | list (item : Form)
  | record (fields : List (Member Form))

namespace Form

def required (name : String) (form : Form) : Member Form := ⟨name, true, form⟩

def optional (name : String) (form : Form) : Member Form := ⟨name, false, form⟩

def strings : Form := .list .string

/-- A record of texts that must all be there. -/
def texts (names : List String) : List (Member Form) := names.map (required · .string)

def journeyAction : List (Member Form) :=
  [required "id" .string, required "name" .string, required "phase" .string,
    optional "touchpoints" strings, optional "thoughts_feelings" strings,
    required "emotion_score" (.integer (-2) 2)]

def lane : List (Member Form) :=
  [required "id" .string, required "name" .string,
    required "kind" (.choice (Actor.all.map Actor.text))]

def task : List (Member Form) :=
  [required "id" .string, required "lane" .string, required "name" .string,
    optional "source_id" .string, optional "link_to" strings, optional "readonly" .boolean]

def factor : List (Member Form) :=
  [required "id" .string, required "kgi_id" .string, optional "source_id" .string,
    required "rationale" .string]

def indicator : List (Member Form) :=
  [required "id" .string, required "csf_id" .string, required "name" .string,
    optional "definition" .string, optional "unit" .string, required "target" .number]

def skill : List (Member Form) :=
  [required "id" .string, required "name" .string, required "action_id" .string,
    optional "learnings" (.list (.record (texts ["title", "url"])))]

def resource : List (Member Form) := texts ["id", "name", "action_id", "url"]

/-- What every document has: its kind, a version and an identifier. -/
def envelope (k : Kind) : List (Member Form) :=
  [required "kind" (.constant k.text), required "version" .string, required "id" .string]

/-- The fields that belong to one kind of document. -/
def body : Kind → List (Member Form)
  | .journey =>
    [optional "persona" (.record (texts ["name"])),
      required "phases" (.list (.record (texts ["id", "name"]))),
      required "actions" (.list (.record journeyAction))]
  | .blueprint =>
    [required "lanes" (.list (.record lane)), required "tasks" (.list (.record task))]
  | .outcome =>
    [required "kgi" (.record (texts ["id", "name"])), required "primary_csf" (.record factor),
      required "primary_kpi" (.record indicator)]
  | .enablement =>
    [required "outcomes" (.list (.record (texts ["id", "source_id"]))),
      required "actions" (.list (.record (texts ["id", "name", "source_id"]))),
      optional "skills" (.list (.record skill)), optional "knowledge" (.list (.record resource)),
      optional "tools" (.list (.record resource))]

/-- All fields of a kind of document, in the order in which they are checked. -/
def document (k : Kind) : List (Member Form) := envelope k ++ body k

end Form

end ServiceMaps
