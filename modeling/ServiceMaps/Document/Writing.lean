import ServiceMaps.ServiceMap.Basic

/-!
From documents to generic values. Fields come in their fixed order, the unknown ones last.
Absent texts, empty lists that may be left out and a task's `readonly` that is false are not
written. The only number of a document that may not be finite is an indicator's target; it has
no generic value then and becomes null, but a text can spell it, so `toValue` and `outline`
differ there.
-/
namespace ServiceMaps

namespace Writing

/-- A field that is always written. -/
def field (name : String) (v : Value) : Fields := [(name, v)]

def text (name : String) (s : String) : Fields := field name (.str s)

/-- A field that is written if it is there. -/
def optionalText (name : String) : Option String → Fields
  | none => []
  | some s => text name s

def list {α : Type} (write : α → Value) (items : List α) : Value := .arr (items.map write)

/-- A list that is written unless it is empty. -/
def optionalList {α : Type} (name : String) (write : α → Value) (items : List α) : Fields :=
  if items.isEmpty then [] else field name (list write items)

def strings (name : String) (items : List String) : Fields := optionalList name .str items

def persona (p : Persona) : Value := .obj (text "name" p.name)

def phase (p : Phase) : Value := .obj (text "id" p.id ++ text "name" p.name)

def journeyAction (a : JourneyAction) : Value :=
  .obj (text "id" a.id ++ text "name" a.name ++ text "phase" a.phase
    ++ strings "touchpoints" a.touchpoints ++ strings "thoughts_feelings" a.thoughtsFeelings
    ++ field "emotion_score" (.int a.emotionScore))

def lane (l : Lane) : Value :=
  .obj (text "id" l.id ++ text "name" l.name ++ text "kind" l.actor.text)

def task (t : BlueprintTask) : Value :=
  .obj (text "id" t.id ++ text "lane" t.lane ++ text "name" t.name
    ++ optionalText "source_id" t.source ++ strings "link_to" t.links
    ++ (if t.readonly then field "readonly" (.bool true) else []))

def goal (g : Goal) : Value := .obj (text "id" g.id ++ text "name" g.name)

def factor (f : SuccessFactor) : Value :=
  .obj (text "id" f.id ++ text "kgi_id" f.goal ++ optionalText "source_id" f.source
    ++ text "rationale" f.rationale)

/-- The generic value of a floating number. -/
def finite (x : Binary64) : Value := if x.isFinite then .float x else .null

/-- An indicator, with a given way to write its target. -/
def indicator (number : Binary64 → Value) (i : Indicator) : Value :=
  .obj (text "id" i.id ++ text "csf_id" i.factor ++ text "name" i.name
    ++ optionalText "definition" i.definition ++ optionalText "unit" i.unit
    ++ field "target" (number i.target))

def enablementOutcome (o : EnablementOutcome) : Value :=
  .obj (text "id" o.id ++ text "source_id" o.source)

def enablementAction (a : EnablementAction) : Value :=
  .obj (text "id" a.id ++ text "name" a.name ++ text "source_id" a.source)

def learning (l : Learning) : Value := .obj (text "title" l.title ++ text "url" l.url)

def skill (s : Skill) : Value :=
  .obj (text "id" s.id ++ text "name" s.name ++ text "action_id" s.action
    ++ optionalList "learnings" learning s.learnings)

def resource (r : Resource) : Value :=
  .obj (text "id" r.id ++ text "name" r.name ++ text "action_id" r.action ++ text "url" r.url)

/-- The known fields of a document, with a given way to write a target. -/
def knownFields (number : Binary64 → Value) : Document → Fields
  | .journey d => text "version" d.version ++ text "id" d.id
    ++ (d.persona.map fun p => ("persona", persona p)).toList
    ++ field "phases" (list phase d.phases) ++ field "actions" (list journeyAction d.actions)
  | .blueprint d => text "version" d.version ++ text "id" d.id
    ++ field "lanes" (list lane d.lanes) ++ field "tasks" (list task d.tasks)
  | .outcome d => text "version" d.version ++ text "id" d.id ++ field "kgi" (goal d.goal)
    ++ field "primary_csf" (factor d.factor) ++ field "primary_kpi" (indicator number d.indicator)
  | .enablement d => text "version" d.version ++ text "id" d.id
    ++ field "outcomes" (list enablementOutcome d.outcomes)
    ++ field "actions" (list enablementAction d.actions) ++ optionalList "skills" skill d.skills
    ++ optionalList "knowledge" resource d.knowledge ++ optionalList "tools" resource d.tools

end Writing

namespace Document

/-- The fields of a document without its kind. -/
def fields (d : Document) : Fields := Writing.knownFields Writing.finite d ++ d.extra

/-- The value of a document: its kind and its fields, all in their places. -/
def toValue (d : Document) : Value :=
  (Value.obj (Writing.text "kind" d.kind.text ++ d.fields)).arranged

/-- What a text says of a document: its value, with a target that need not be finite. -/
def outline (d : Document) : Fields :=
  Writing.text "kind" d.kind.text ++ Writing.knownFields .float d ++ d.extra

end Document

end ServiceMaps
