import ServiceMaps.ServiceMap.Fresh
import ServiceMaps.ServiceMap.Text
import ServiceMaps.Editing

/-!
An editing session: one service map, the settings in force and a sequence of identifiers, changed
by one command after another. A command that fails changes nothing.
-/
namespace ServiceMaps

structure Session where
  current : ServiceMap
  settings : Settings
  ids : IdSequence
  deriving DecidableEq

inductive Command where
  /-- Reads new settings. -/
  | configure (toml : String)
  /-- Reads a service map in place of the current one. -/
  | load (text : String)
  /-- Empties the map. -/
  | reset
  /-- Loads a document into the map. -/
  | insert (format : Format) (text : String)
  | remove (kind : Kind)
  /-- Puts a new document into the map. -/
  | create (kind : Kind)
  /-- Adds a new outcome document to a blueprint without one. -/
  | ensureOutcome
  | drawId (kind entity : String)
  | addPhase (name : String)
  | addAction (name phase : String) (touchpoints thoughtsFeelings : List String) (score : Int)
  | addTask (name lane : String) (source : Option String) (links : List String) (readonly : Bool)
  | addMeasure (name source : String)
  | link (source target : String)
  | setFactorSource (source : Option String)
  | setTarget (target : Binary64)
  /-- Replaces a text in the written map and reads it again. -/
  | replaceText (old new : String)
  /-- Writes the map and reads it again. -/
  | reload

/-- What a command answers besides the new session. -/
inductive Reply where
  | done
  | settings (settings : Settings)
  | replaced (previous : Option Document)
  | created (d : Document)
  | id (text : String)
  | count (n : Nat)
  | factor (f : SuccessFactor)

inductive CommandError where
  | badSettings
  | load (e : LoadError)
  | absentDocument
  deriving DecidableEq, Repr

/-- Replaces `old`, which is not empty, wherever it stands; `skip` characters belong to a place
that is already replaced. -/
def replaceFrom (old new : List Char) : (skip : Nat) → List Char → List Char
  | _, [] => []
  | skip + 1, _ :: rest => replaceFrom old new skip rest
  | 0, c :: rest =>
    if old.isPrefixOf (c :: rest) then new ++ replaceFrom old new (old.length - 1) rest
    else c :: replaceFrom old new 0 rest

/-- Replaces a text wherever it stands, from left to right; the empty text stands before every
character and at the end. -/
def replaceAll (old new text : String) : String :=
  String.ofList <|
    if old.isEmpty then new.toList ++ text.toList.flatMap fun c => c :: new.toList
    else replaceFrom old.toList new.toList 0 text.toList

namespace Session

/-- A session with an empty map whose identifiers carry a label. -/
def start (settings : Settings) (label : String) : Session := ⟨.empty, settings, .start label⟩

/-- Draws an identifier. -/
def draw (kind entity : String) (s : Session) : String × Session :=
  let (id, ids) := s.ids.draw kind entity
  (id, { s with ids := ids })

/-- Draws an identifier for a part and adds the part, if its document is present. -/
def addPart (kind entity : String) (part : String → Part) (s : Session) :
    Except CommandError (Reply × Session) :=
  let (id, next) := s.draw kind entity
  if s.current.contains (part id).kind then
    .ok (.id id, { next with current := next.current.append (part id) })
  else .error .absentDocument

/-- Reads a service map in place of the current one. -/
def readMap (text : String) (s : Session) : Except CommandError Session :=
  match ServiceMap.ofText s.settings text with
  | .ok m => .ok { s with current := m }
  | .error e => .error (.load e)

/-- Carries out a command. -/
def run (s : Session) : Command → Except CommandError (Reply × Session)
  | .configure toml =>
    match Settings.ofToml? toml with
    | some settings => .ok (.settings settings, { s with settings := settings })
    | none => .error .badSettings
  | .load text => do return (.done, ← s.readMap text)
  | .reset => .ok (.done, { s with current := .empty })
  | .insert format text =>
    match Document.ofText s.settings format text with
    | .ok d => .ok (.replaced (s.current.get? d.kind), { s with current := s.current.insert d })
    | .error e => .error (.load e)
  | .remove kind => .ok (.done, { s with current := s.current.erase kind })
  | .create kind =>
    let (d, ids) := Document.fresh IdSequence.source s.settings kind s.ids
    .ok (.created d, { s with current := s.current.insert d, ids := ids })
  | .ensureOutcome =>
    let (m, ids) := s.current.ensureOutcome IdSequence.source s.settings s.ids
    .ok (.done, { s with current := m, ids := ids })
  | .drawId kind entity =>
    let (id, s) := s.draw kind entity
    .ok (.id id, s)
  | .addPhase name => s.addPart "cjm" "phase" fun id => .phase ⟨id, name⟩
  | .addAction name phase touchpoints thoughtsFeelings score =>
    s.addPart "cjm" "action" fun id =>
      .journeyAction ⟨id, name, phase, touchpoints, thoughtsFeelings, score⟩
  | .addTask name lane source links readonly =>
    s.addPart "sbp" "task" fun id => .task ⟨id, lane, name, source, links, readonly⟩
  | .addMeasure name source =>
    s.addPart "em" "action" fun id => .enablementAction ⟨id, name, source⟩
  | .link source target =>
    match s.current.blueprint with
    | none => .error .absentDocument
    | some d =>
      .ok (.count (d.tasks.countP (·.id = source)), { s with current := s.current.link source target })
  | .setFactorSource source =>
    match s.current.outcome with
    | none => .error .absentDocument
    | some d =>
      .ok (.factor { d.factor with source := source },
        { s with current := s.current.setFactorSource source })
  | .setTarget target =>
    if s.current.outcome.isNone then .error .absentDocument
    else .ok (.done, { s with current := s.current.setTarget target })
  | .replaceText old new => do return (.done, ← s.readMap (replaceAll old new s.current.text))
  | .reload => do return (.done, ← s.readMap s.current.text)

end Session

end ServiceMaps
