import ServiceMaps.ServiceMap.Basic
import ServiceMaps.Lookup

/-!
The lineage of an indicator, back to the customer: the task where the success factor shows, the
journey action that the task serves, the phase of that action, and the measures that enable
people to do the task. A lineage is complete or there is none.
-/
namespace ServiceMaps

structure Lineage where
  indicator : Indicator
  task : BlueprintTask
  action : JourneyAction
  phase : Phase
  measures : List EnablementAction
  deriving DecidableEq

/-- The lineage of an indicator; all four documents must be present. -/
def ServiceMap.lineage? (s : ServiceMap) (indicator : String) : Option Lineage := do
  let journey ← s.journey
  let blueprint ← s.blueprint
  let outcome ← s.outcome
  let enablement ← s.enablement
  if outcome.indicator.id = indicator then
    let task ← blueprint.factorTask? outcome
    let source ← pointsTo? task.source
    let action ← journey.actions.find? (·.id = source)
    let phase ← journey.phases.find? (·.id = action.phase)
    return ⟨outcome.indicator, task, action, phase, enablement.actionsFor task.id⟩
  else none

end ServiceMaps
