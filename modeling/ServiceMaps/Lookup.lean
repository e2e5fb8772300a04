import ServiceMaps.Document.Basic

/-!
Looking up the parts of a document that refer to a given identifier, in the order of the
document, and the course of feelings along a journey.
-/
namespace ServiceMaps

namespace JourneyMap

def actionsIn (d : JourneyMap) (phase : String) : List JourneyAction :=
  d.actions.filter (·.phase = phase)

end JourneyMap

namespace Blueprint

/-- The tasks that serve a journey action. -/
def tasksServing (d : Blueprint) (action : String) : List BlueprintTask :=
  d.tasks.filter (·.source = some action)

/-- The first task with an identifier. -/
def task? (d : Blueprint) (id : String) : Option BlueprintTask := d.tasks.find? (·.id = id)

/-- The task where the success factor of an outcome shows. -/
def factorTask? (d : Blueprint) (o : Outcome) : Option BlueprintTask :=
  (pointsTo? o.factor.source).bind d.task?

end Blueprint

namespace EnablementMap

def actionsFor (d : EnablementMap) (task : String) : List EnablementAction :=
  d.actions.filter (·.source = task)

def outcomesFor (d : EnablementMap) (indicator : String) : List EnablementOutcome :=
  d.outcomes.filter (·.source = indicator)

def skillsFor (d : EnablementMap) (action : String) : List Skill :=
  d.skills.filter (·.action = action)

def knowledgeFor (d : EnablementMap) (action : String) : List Resource :=
  d.knowledge.filter (·.action = action)

def toolsFor (d : EnablementMap) (action : String) : List Resource :=
  d.tools.filter (·.action = action)

end EnablementMap

/-- How a phase of a journey feels; a phase without actions has no mean score. -/
structure PhaseMood where
  phase : String
  name : String
  count : Nat
  mean : Option Binary64
  deriving DecidableEq, Repr

namespace PhaseMood

-- An empty sum is the numeral zero, also in a module that knows the zeros of semirings.
attribute [local instance (2000)] Zero.ofOfNat0 in
/-- The sum of the scores of actions. -/
def total (actions : List JourneyAction) : Int := (actions.map (·.emotionScore)).sum

/-- The mean score of actions, rounded once. -/
def mean? (actions : List JourneyAction) : Option Binary64 :=
  if actions.isEmpty then none
  else some (.ofRatio (total actions < 0) (total actions).natAbs actions.length)

end PhaseMood

/-- How the phases of a journey feel, in their order. -/
def JourneyMap.moods (d : JourneyMap) : List PhaseMood :=
  d.phases.map fun p =>
    let actions := d.actionsIn p.id
    ⟨p.id, p.name, actions.length, PhaseMood.mean? actions⟩

end ServiceMaps
