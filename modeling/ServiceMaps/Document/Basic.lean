import ServiceMaps.Kind
import ServiceMaps.Value.Basic

/-!
The four documents of a service and their parts. Parts refer to each other by identifier: a
journey action to its phase, a blueprint task to its lane, to a journey action and to further
tasks, a success factor to a goal and a task, an indicator to the success factor, and the parts
of an enablement map to tasks, to the indicator and to each other. Every document keeps the
fields it does not know in `extra`.
-/
namespace ServiceMaps

structure Persona where
  name : String
  deriving DecidableEq

structure Phase where
  id : String
  name : String
  deriving DecidableEq

/-- What the customer does in a phase, and how that feels from -2 to 2. -/
structure JourneyAction where
  id : String
  name : String
  phase : String
  touchpoints : List String
  thoughtsFeelings : List String
  emotionScore : Int
  deriving DecidableEq

structure JourneyMap where
  version : String
  id : String
  persona : Option Persona
  phases : List Phase
  actions : List JourneyAction
  extra : Fields
  deriving DecidableEq

structure Lane where
  id : String
  name : String
  actor : Actor
  deriving DecidableEq

/-- A piece of work in a lane. `source` is the journey action that it serves, `links` are the
tasks that follow it. -/
structure BlueprintTask where
  id : String
  lane : String
  name : String
  source : Option String
  links : List String
  readonly : Bool
  deriving DecidableEq

structure Blueprint where
  version : String
  id : String
  lanes : List Lane
  tasks : List BlueprintTask
  extra : Fields
  deriving DecidableEq

structure Goal where
  id : String
  name : String
  deriving DecidableEq

/-- What must go well to reach the goal; `source` is the task where it shows. -/
structure SuccessFactor where
  id : String
  goal : String
  source : Option String
  rationale : String
  deriving DecidableEq

structure Indicator where
  id : String
  factor : String
  name : String
  definition : Option String
  unit : Option String
  target : Binary64
  deriving DecidableEq

structure Outcome where
  version : String
  id : String
  goal : Goal
  factor : SuccessFactor
  indicator : Indicator
  extra : Fields
  deriving DecidableEq

/-- An outcome of enablement; `source` is the indicator it works towards. -/
structure EnablementOutcome where
  id : String
  source : String
  deriving DecidableEq

/-- A measure that enables people to do the task `source`. -/
structure EnablementAction where
  id : String
  name : String
  source : String
  deriving DecidableEq

structure Learning where
  title : String
  url : String
  deriving DecidableEq

structure Skill where
  id : String
  name : String
  action : String
  learnings : List Learning
  deriving DecidableEq

/-- A piece of knowledge or a tool, which belongs to an enablement action. -/
structure Resource where
  id : String
  name : String
  action : String
  url : String
  deriving DecidableEq

structure EnablementMap where
  version : String
  id : String
  outcomes : List EnablementOutcome
  actions : List EnablementAction
  skills : List Skill
  knowledge : List Resource
  tools : List Resource
  extra : Fields
  deriving DecidableEq

inductive Document where
  | journey (d : JourneyMap)
  | blueprint (d : Blueprint)
  | outcome (d : Outcome)
  | enablement (d : EnablementMap)
  deriving DecidableEq

/-- A reference that points somewhere: an absent one and an empty one do not. -/
def pointsTo? (r : Option String) : Option String := r.filter (· ≠ "")

namespace JourneyMap

/-- Equality of documents, with floating numbers compared as numbers. -/
def same (a b : JourneyMap) : Bool :=
  { a with extra := [] } == { b with extra := [] }
    && Value.agreeFields Binary64.same a.extra b.extra

end JourneyMap

namespace Blueprint

def same (a b : Blueprint) : Bool :=
  { a with extra := [] } == { b with extra := [] }
    && Value.agreeFields Binary64.same a.extra b.extra

end Blueprint

namespace Outcome

def same (a b : Outcome) : Bool :=
  { a with extra := [], indicator := { a.indicator with target := .nan } }
      == { b with extra := [], indicator := { b.indicator with target := .nan } }
    && Binary64.same a.indicator.target b.indicator.target
    && Value.agreeFields Binary64.same a.extra b.extra

end Outcome

namespace EnablementMap

def same (a b : EnablementMap) : Bool :=
  { a with extra := [] } == { b with extra := [] }
    && Value.agreeFields Binary64.same a.extra b.extra

end EnablementMap

namespace Document

def kind : Document → Kind
  | .journey _ => .journey
  | .blueprint _ => .blueprint
  | .outcome _ => .outcome
  | .enablement _ => .enablement

def id : Document → String
  | .journey d => d.id
  | .blueprint d => d.id
  | .outcome d => d.id
  | .enablement d => d.id

def version : Document → String
  | .journey d => d.version
  | .blueprint d => d.version
  | .outcome d => d.version
  | .enablement d => d.version

def extra : Document → Fields
  | .journey d => d.extra
  | .blueprint d => d.extra
  | .outcome d => d.extra
  | .enablement d => d.extra

end Document

end ServiceMaps
