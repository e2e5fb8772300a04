/-!
What can be wrong with the references of a service map: a reference that points to nothing,
an enablement outcome that works towards another indicator than the current one, and an
identifier that is used twice. Every fault has a source and a target, each an identifier in
a collection.
-/
namespace ServiceMaps

/-- The places where identifiers are given: the documents and the lists of their parts. -/
inductive Collection where
  | journey
  | phase
  | journeyAction
  | blueprint
  | lane
  | task
  | outcome
  | goal
  | factor
  | indicator
  | enablement
  | enablementOutcome
  | enablementAction
  | skill
  | knowledge
  | tool
  deriving DecidableEq, Repr

namespace Collection

def text : Collection → String
  | .journey => "cjm:document"
  | .phase => "cjm:phase"
  | .journeyAction => "cjm:action"
  | .blueprint => "sbp:document"
  | .lane => "sbp:lane"
  | .task => "sbp:task"
  | .outcome => "outcome:document"
  | .goal => "outcome:kgi"
  | .factor => "outcome:csf"
  | .indicator => "outcome:kpi"
  | .enablement => "em:document"
  | .enablementOutcome => "em:outcome"
  | .enablementAction => "em:action"
  | .skill => "em:skill"
  | .knowledge => "em:knowledge"
  | .tool => "em:tool"

end Collection

/-- The references between parts, named for the part that holds them. -/
inductive Reference where
  | taskSource
  | factorSource
  | actionSource
  | actionPhase
  | taskLane
  | taskLink
  | factorGoal
  | indicatorFactor
  | skillAction
  | knowledgeAction
  | toolAction
  deriving DecidableEq, Repr

namespace Reference

/-- The collection of the parts that hold the reference. -/
def source : Reference → Collection
  | .taskSource | .taskLane | .taskLink => .task
  | .factorSource | .factorGoal => .factor
  | .actionSource => .enablementAction
  | .actionPhase => .journeyAction
  | .indicatorFactor => .indicator
  | .skillAction => .skill
  | .knowledgeAction => .knowledge
  | .toolAction => .tool

/-- The collection that the reference points into. -/
def target : Reference → Collection
  | .taskSource => .journeyAction
  | .factorSource | .actionSource | .taskLink => .task
  | .actionPhase => .phase
  | .taskLane => .lane
  | .factorGoal => .goal
  | .indicatorFactor => .factor
  | .skillAction | .knowledgeAction | .toolAction => .enablementAction

end Reference

/-- Something wrong with a reference or an identifier. -/
inductive Fault where
  /-- The part `id`, called `name`, refers to `target`, which does not exist. -/
  | missing (reference : Reference) (id name target : String)
  /-- The enablement outcome `id` refers to `target`, but the indicator is `current`. -/
  | otherIndicator (id target current : String)
  /-- The identifier `id` of a collection is used before, in the collection `first`. -/
  | duplicate (collection : Collection) (id : String) (first : Collection)
  deriving DecidableEq, Repr

namespace Fault

/-- Whether an identifier is used twice; else a reference is missing. -/
def isDuplicate : Fault → Bool
  | .duplicate .. => true
  | _ => false

def kindText (v : Fault) : String :=
  if v.isDuplicate then "duplicate_id" else "missing_reference"

def sourceCollection : Fault → Collection
  | .missing r .. => r.source
  | .otherIndicator .. => .enablementOutcome
  | .duplicate collection .. => collection

def sourceId : Fault → String
  | .missing _ id .. => id
  | .otherIndicator id .. => id
  | .duplicate _ id _ => id

def targetCollection : Fault → Collection
  | .missing r .. => r.target
  | .otherIndicator .. => .indicator
  | .duplicate _ _ first => first

def targetId : Fault → String
  | .missing _ _ _ target => target
  | .otherIndicator _ target _ => target
  | .duplicate _ id _ => id

def quote (s : String) : String := "\"" ++ s ++ "\""

/-- A part by its name and identifier. -/
def named (what name id : String) : String := what ++ " " ++ quote name ++ " (" ++ id ++ ")"

/-- A part by its identifier. -/
def unnamed (what id : String) : String := what ++ " (" ++ id ++ ")"

def message : Fault → String
  | .missing r id name target =>
    (match r with
      | .taskSource => named "SBP task" name id ++ " references missing CJM action "
      | .factorSource => unnamed "Outcome CSF" id ++ " references missing SBP task "
      | .actionSource => named "EM action" name id ++ " references missing SBP task "
      | .actionPhase => named "CJM action" name id ++ " belongs to missing phase "
      | .taskLane => named "SBP task" name id ++ " sits in missing lane "
      | .taskLink => named "SBP task" name id ++ " links to missing task "
      | .factorGoal => unnamed "Outcome CSF" id ++ " references missing KGI "
      | .indicatorFactor => named "Outcome KPI" name id ++ " references missing CSF "
      | .skillAction | .knowledgeAction | .toolAction =>
        named r.source.text name id ++ " references missing EM action ") ++ quote target
  | .otherIndicator id target current =>
    unnamed "EM outcome" id ++ " references KPI " ++ quote target ++ " but the current KPI is "
      ++ quote current
  | .duplicate collection id first =>
    "id " ++ quote id ++ " in " ++ collection.text ++ " is already used in " ++ first.text

end Fault

/-- The result of a check: whether it found nothing, and what it found. -/
structure Verdict where
  valid : Bool
  faults : List Fault
  deriving DecidableEq, Repr

/-- The result of a check that found `faults`. -/
def Verdict.ofFaults (faults : List Fault) : Verdict := ⟨faults.isEmpty, faults⟩

/-- The faults whose source is in a collection of a given name. -/
def faultsFrom (collection : String) (faults : List Fault) : List Fault :=
  faults.filter (·.sourceCollection.text = collection)

end ServiceMaps
