import ServiceMaps.Settings
import ServiceMaps.ServiceMap.Basic
import ServiceMaps.Identifier

/-!
New documents. They have fresh identifiers, the version that the settings name, and no parts;
an outcome document has its three parts, linked to each other and otherwise empty.
-/
namespace ServiceMaps

variable {σ : Type}

/-- A new outcome document. Its identifiers are drawn for the goal, the success factor, the
document and the indicator, in this order. -/
def Outcome.fresh (ids : IdSource σ) (settings : Settings) (s : σ) : Outcome × σ :=
  let (goalId, s) := ids.draw "outcome" "kgi" s
  let (factorId, s) := ids.draw "outcome" "csf" s
  let (id, s) := ids.draw "outcome" "document" s
  let (indicatorId, s) := ids.draw "outcome" "kpi" s
  ({ version := settings.startVersion
     id := id
     goal := ⟨goalId, ""⟩
     factor := ⟨factorId, goalId, none, ""⟩
     indicator := ⟨indicatorId, factorId, "", none, none, .zero false⟩
     extra := [] }, s)

/-- A new document of a given kind. -/
def Document.fresh (ids : IdSource σ) (settings : Settings) (kind : Kind) (s : σ) :
    Document × σ :=
  match kind with
  | .journey =>
    let (id, s) := ids.draw "cjm" "document" s
    (.journey ⟨settings.startVersion, id, none, [], [], []⟩, s)
  | .blueprint =>
    let (id, s) := ids.draw "sbp" "document" s
    (.blueprint ⟨settings.startVersion, id, [], [], []⟩, s)
  | .outcome =>
    let (d, s) := Outcome.fresh ids settings s
    (.outcome d, s)
  | .enablement =>
    let (id, s) := ids.draw "em" "document" s
    (.enablement ⟨settings.startVersion, id, [], [], [], [], [], []⟩, s)

/-- Adds a new outcome document to a map that has a blueprint and no outcome. -/
def ServiceMap.ensureOutcome (ids : IdSource σ) (settings : Settings) (m : ServiceMap)
    (s : σ) : ServiceMap × σ :=
  if m.blueprint.isNone || m.outcome.isSome then (m, s)
  else
    let (d, s) := Document.fresh ids settings .outcome s
    (m.insert d, s)

end ServiceMaps
