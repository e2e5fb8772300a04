import ServiceMaps.References.Across

/-!
References inside one document, and identifiers that are used twice anywhere in a map. Unlike
references between documents these must always point to something.
-/
namespace ServiceMaps

namespace References

/-- Journey actions in no existing phase. -/
def withinJourney (j : JourneyMap) : List Fault :=
  j.actions.flatMap fun a => unresolved .actionPhase a.id a.name a.phase (j.phases.map (·.id))

/-- A task in no existing lane, then its links to no existing task. -/
def withinTask (b : Blueprint) (t : BlueprintTask) : List Fault :=
  unresolved .taskLane t.id t.name t.lane (b.lanes.map (·.id))
    ++ t.links.flatMap fun link => unresolved .taskLink t.id t.name link (b.tasks.map (·.id))

def withinBlueprint (b : Blueprint) : List Fault := b.tasks.flatMap (withinTask b)

/-- A success factor for another goal, then an indicator of another success factor. -/
def withinOutcome (o : Outcome) : List Fault :=
  unresolved .factorGoal o.factor.id "" o.factor.goal [o.goal.id]
    ++ unresolved .indicatorFactor o.indicator.id o.indicator.name o.indicator.factor [o.factor.id]

/-- Skills, knowledge and tools for no existing enablement action. -/
def withinEnablement (e : EnablementMap) : List Fault :=
  let actions := e.actions.map (·.id)
  (e.skills.flatMap fun s => unresolved .skillAction s.id s.name s.action actions)
    ++ (e.knowledge.flatMap fun k => unresolved .knowledgeAction k.id k.name k.action actions)
    ++ e.tools.flatMap fun t => unresolved .toolAction t.id t.name t.action actions

/-- What a check of a document finds if it is present. -/
def each {α : Type} (check : α → List Fault) : Option α → List Fault
  | some a => check a
  | none => []

end References

/-- An identifier and the collection where it is given. -/
abbrev Entry := Collection × String

namespace Document

/-- All identifiers that a document gives, its own first. -/
def entries : Document → List Entry
  | .journey d =>
    (.journey, d.id) :: d.phases.map (fun p => (.phase, p.id))
      ++ d.actions.map fun a => (.journeyAction, a.id)
  | .blueprint d =>
    (.blueprint, d.id) :: d.lanes.map (fun l => (.lane, l.id))
      ++ d.tasks.map fun t => (.task, t.id)
  | .outcome d =>
    [(.outcome, d.id), (.goal, d.goal.id), (.factor, d.factor.id), (.indicator, d.indicator.id)]
  | .enablement d =>
    (.enablement, d.id) :: d.outcomes.map (fun o => (.enablementOutcome, o.id))
      ++ d.actions.map (fun a => (.enablementAction, a.id))
      ++ d.skills.map (fun s => (.skill, s.id))
      ++ d.knowledge.map (fun k => (.knowledge, k.id))
      ++ d.tools.map fun t => (.tool, t.id)

end Document

namespace References

/-- The collection where an identifier is first given. -/
def firstPlace? (id : String) (entries : List Entry) : Option Collection :=
  (entries.find? (·.2 = id)).map (·.1)

/-- The identifiers that stand in `earlier` or before in the list, each with its first place. -/
def duplicatesAfter (earlier : List Entry) : List Entry → List Fault
  | [] => []
  | (collection, id) :: rest =>
    (match firstPlace? id earlier with
      | some first => [.duplicate collection id first]
      | none => []) ++ duplicatesAfter (earlier ++ [(collection, id)]) rest

/-- The identifiers that are used before in a list. -/
def duplicates (entries : List Entry) : List Fault := duplicatesAfter [] entries

end References

namespace ServiceMap

open References

/-- All identifiers of a map in the order of its documents. -/
def entries (s : ServiceMap) : List Entry := s.documents.flatMap Document.entries

/-- The references inside documents that do not resolve. -/
def missingWithin (s : ServiceMap) : List Fault :=
  each withinJourney s.journey ++ each withinBlueprint s.blueprint
    ++ each withinOutcome s.outcome ++ each withinEnablement s.enablement

/-- The references inside documents that do not resolve, then the identifiers used twice. -/
def faultsWithin (s : ServiceMap) : List Fault :=
  s.missingWithin ++ duplicates s.entries

/-- The check of what is inside the documents. -/
def checkWithin (s : ServiceMap) : Verdict := .ofFaults s.faultsWithin

end ServiceMap

end ServiceMaps
