import ServiceMaps.ServiceMap.Basic
import ServiceMaps.References.Fault

/-!
References from one document to another. They are checked where both documents are present; a
reference that is absent or empty points nowhere and is never a fault.
-/
namespace ServiceMaps

namespace References

/-- The fault of a reference that points to `target`, if it is none of `ids`. -/
def unresolved (r : Reference) (id name target : String) (ids : List String) : List Fault :=
  if ids.contains target then [] else [.missing r id name target]

/-- The fault of a reference that may point nowhere. -/
def unresolvedSet (r : Reference) (id name : String) (target : Option String)
    (ids : List String) : List Fault :=
  match pointsTo? target with
  | none => []
  | some target => unresolved r id name target ids

/-- Tasks that serve no existing journey action. -/
def taskSources (b : Blueprint) (j : JourneyMap) : List Fault :=
  b.tasks.flatMap fun t => unresolvedSet .taskSource t.id t.name t.source (j.actions.map (·.id))

/-- A success factor that shows in no existing task. -/
def factorSource (o : Outcome) (b : Blueprint) : List Fault :=
  unresolvedSet .factorSource o.factor.id "" o.factor.source (b.tasks.map (·.id))

/-- Enablement actions for no existing task. -/
def actionSources (e : EnablementMap) (b : Blueprint) : List Fault :=
  e.actions.flatMap fun a =>
    unresolvedSet .actionSource a.id a.name (some a.source) (b.tasks.map (·.id))

/-- Enablement outcomes that work towards another indicator. -/
def outcomeSources (e : EnablementMap) (o : Outcome) : List Fault :=
  e.outcomes.flatMap fun u =>
    match pointsTo? (some u.source) with
    | none => []
    | some target =>
      if target = o.indicator.id then [] else [.otherIndicator u.id target o.indicator.id]

/-- What a check of two documents finds if both are present. -/
def both {α β : Type} (check : α → β → List Fault) : Option α → Option β → List Fault
  | some a, some b => check a b
  | _, _ => []

end References

namespace ServiceMap

open References

/-- The references between documents that do not resolve. -/
def faultsAcross (s : ServiceMap) : List Fault :=
  both taskSources s.blueprint s.journey
    ++ both factorSource s.outcome s.blueprint
    ++ both actionSources s.enablement s.blueprint
    ++ both outcomeSources s.enablement s.outcome

/-- The check of the references between documents. -/
def checkAcross (s : ServiceMap) : Verdict := .ofFaults s.faultsAcross

end ServiceMap

end ServiceMaps
