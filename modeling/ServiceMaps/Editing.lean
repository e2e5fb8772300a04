import ServiceMaps.ServiceMap.Basic

/-!
Editing the documents of a service map in place: adding a part at the end of its list, linking tasks,
and changing what the outcome document points to or aims at. Each edit needs the document that
it changes, and no edit checks the references of what it adds.
-/
namespace ServiceMaps

/-- A part that can be added to a document. -/
inductive Part where
  | phase (p : Phase)
  | journeyAction (a : JourneyAction)
  | lane (l : Lane)
  | task (t : BlueprintTask)
  | enablementAction (a : EnablementAction)
  | skill (s : Skill)
  | knowledge (r : Resource)
  | tool (r : Resource)
  deriving DecidableEq

namespace Part

/-- The kind of document that has such parts. -/
def kind : Part → Kind
  | .phase _ | .journeyAction _ => .journey
  | .lane _ | .task _ => .blueprint
  | .enablementAction _ | .skill _ | .knowledge _ | .tool _ => .enablement

end Part

namespace ServiceMap

/-- Adds a part at the end of its list; nothing changes if its document is absent. -/
def append (p : Part) (s : ServiceMap) : ServiceMap :=
  match p with
  | .phase p =>
    { s with journey := s.journey.map fun d => { d with phases := d.phases ++ [p] } }
  | .journeyAction a =>
    { s with journey := s.journey.map fun d => { d with actions := d.actions ++ [a] } }
  | .lane l =>
    { s with blueprint := s.blueprint.map fun d => { d with lanes := d.lanes ++ [l] } }
  | .task t =>
    { s with blueprint := s.blueprint.map fun d => { d with tasks := d.tasks ++ [t] } }
  | .enablementAction a =>
    { s with enablement := s.enablement.map fun d => { d with actions := d.actions ++ [a] } }
  | .skill k =>
    { s with enablement := s.enablement.map fun d => { d with skills := d.skills ++ [k] } }
  | .knowledge r =>
    { s with enablement := s.enablement.map fun d => { d with knowledge := d.knowledge ++ [r] } }
  | .tool r =>
    { s with enablement := s.enablement.map fun d => { d with tools := d.tools ++ [r] } }

/-- Adds a link to every task with an identifier. -/
def link (source target : String) (s : ServiceMap) : ServiceMap :=
  { s with
    blueprint := s.blueprint.map fun d =>
      { d with
        tasks := d.tasks.map fun t =>
          if t.id = source then { t with links := t.links ++ [target] } else t } }

/-- Changes the task where the success factor shows. -/
def setFactorSource (source : Option String) (s : ServiceMap) : ServiceMap :=
  { s with
    outcome := s.outcome.map fun d => { d with factor := { d.factor with source := source } } }

/-- Changes what the indicator aims at. -/
def setTarget (target : Binary64) (s : ServiceMap) : ServiceMap :=
  { s with
    outcome := s.outcome.map fun d =>
      { d with indicator := { d.indicator with target := target } } }

end ServiceMap

end ServiceMaps
