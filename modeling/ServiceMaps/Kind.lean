/-!
The four kinds of document that describe a service: the customer's journey, the blueprint of
the work behind it, the outcome it is measured by, and the enablement of the people who do the
work. Every document names its kind.
-/
namespace ServiceMaps

inductive Kind where
  | journey
  | blueprint
  | outcome
  | enablement
  deriving DecidableEq, Repr

namespace Kind

/-- The order in which documents are listed and written. -/
def all : List Kind := [.journey, .blueprint, .outcome, .enablement]

/-- The name that a document carries. -/
def text : Kind → String
  | .journey => "cjm"
  | .blueprint => "sbp"
  | .outcome => "outcome"
  | .enablement => "em"

def ofText? (s : String) : Option Kind := all.find? (·.text = s)

theorem text_injective {k l : Kind} (h : k.text = l.text) : k = l := by
  revert h; cases k <;> cases l <;> decide

@[simp] theorem ofText?_text (k : Kind) : ofText? k.text = some k := by cases k <;> decide

theorem text_of_ofText? {s : String} {k : Kind} (h : ofText? s = some k) : k.text = s := by
  have := List.find?_some h
  simpa using this

end Kind

/-- Who acts in a lane of a blueprint. -/
inductive Actor where
  | customer
  | human
  | team
  | system
  deriving DecidableEq, Repr

namespace Actor

def all : List Actor := [.customer, .human, .team, .system]

def text : Actor → String
  | .customer => "cjm"
  | .human => "human"
  | .team => "team"
  | .system => "system"

def ofText? (s : String) : Option Actor := all.find? (·.text = s)

@[simp] theorem ofText?_text (k : Actor) : ofText? k.text = some k := by cases k <;> decide

end Actor

end ServiceMaps
