import ServiceMaps.Value.Basic
import ServiceMaps.Toml.Scalar

/-!
The tables of a TOML text while they are built up. A table remembers how it came about,
because that decides what may be added to it: a header defines a table once, dotted keys may
add to tables that dotted keys made, and a table in braces is complete.
-/
namespace ServiceMaps.Toml

/-- How a table came about. -/
inductive Origin where
  /-- By its own header, or as the whole text. -/
  | header
  /-- By the header of a table inside it. -/
  | implied
  /-- By a dotted key. -/
  | dotted
  /-- In braces. -/
  | braces
  deriving DecidableEq, Repr

inductive Item where
  | boolean (b : Bool)
  | number (n : Number)
  | text (s : String)
  | date (s : String)
  | array (items : List Item)
  | table (origin : Origin) (entries : List (String × Item))
  /-- The tables of a repeated header, the latest first. -/
  | tables (elements : List (List (String × Item)))
  deriving Inhabited

/-- The entries of a table in the order in which they came. -/
abbrev Entries := List (String × Item)

namespace Entries

def get? (name : String) (entries : Entries) : Option Item := entries.lookup name

/-- Replaces an entry in its place, or adds it at the end. -/
def set (name : String) (item : Item) : Entries → Entries
  | [] => [(name, item)]
  | (key, old) :: rest =>
    if key = name then (name, item) :: rest else (key, old) :: set name item rest

def remove (name : String) (entries : Entries) : Entries := entries.filter (·.1 ≠ name)

/-- Adds an entry that must be new. -/
def add? (name : String) (item : Item) (entries : Entries) : Option Entries :=
  if (get? name entries).isSome then none else some (entries ++ [(name, item)])

/-- Applies a change to the table at a path and yields its result; tables that are not there
are made on the way. A dotted key does not enter a table that has a header of its own. -/
def within {α : Type} (dotted : Bool) (change : Origin → Entries → Option (α × Entries)) :
    List String → Origin → Entries → Option (α × Entries)
  | [], origin, entries => change origin entries
  | name :: path, _, entries =>
    match get? name entries with
    | none => do
      let origin : Origin := if dotted then .dotted else .implied
      let (a, inner) ← within dotted change path origin []
      return (a, entries ++ [(name, .table origin inner)])
    | some (.table origin inner) =>
      if origin = .braces || (dotted && origin = .header) then none
      else do
        let (a, inner) ← within dotted change path origin inner
        return (a, set name (.table origin inner) entries)
    | some (.tables (latest :: earlier)) => do
      let (a, inner) ← within dotted change path .header latest
      return (a, set name (.tables (inner :: earlier)) entries)
    | some _ => none

/-- Adds the value of a key to a table. Tables of dotted keys and others do not mix. -/
def assign? (path : List String) (name : String) (item : Item) (entries : Entries) :
    Option Entries :=
  (within true (fun origin entries =>
    if decide (origin = .dotted) == path.isEmpty then none
    else (add? name item entries).map ((), ·)) path .header entries).map (·.2)

end Entries

/-- A text being read: the tables so far, and the one that keys are now added to, which is not
among them yet. -/
structure Draft where
  root : Entries
  current : Entries
  path : List String
  name : Option String
  repeated : Bool

namespace Draft

def start : Draft := ⟨[], [], [], none, false⟩

/-- Puts the current table in its place. -/
def close? (b : Draft) : Option Entries :=
  match b.name with
  | none => some b.current
  | some name =>
    (Entries.within false (fun _ entries =>
      if b.repeated then
        match Entries.get? name entries with
        | none => some ((), entries ++ [(name, .tables [b.current])])
        | some (.tables elements) =>
          some ((), Entries.set name (.tables (b.current :: elements)) entries)
        | some _ => none
      else (Entries.add? name (.table .header b.current) entries).map ((), ·))
      b.path .header b.root).map (·.2)

/-- Starts the table of a header. It may be there only as one that was implied. -/
def openTable? (path : List String) (name : String) (b : Draft) : Option Draft := do
  let root ← b.close?
  let (current, root) ← Entries.within false (fun _ entries =>
    match Entries.get? name entries with
    | none => some ([], entries)
    | some (.table .implied inner) => some (inner, Entries.remove name entries)
    | some _ => none) path .header root
  return ⟨root, current, path, some name, false⟩

/-- Starts one more table of a repeated header. -/
def openRepeated? (path : List String) (name : String) (b : Draft) : Option Draft := do
  let root ← b.close?
  let (_, root) ← Entries.within false (fun _ entries =>
    match Entries.get? name entries with
    | none => some ((), entries)
    | some (.tables _) => some ((), entries)
    | some _ => none) path .header root
  return ⟨root, [], path, some name, true⟩

def assign? (path : List String) (name : String) (item : Item) (b : Draft) : Option Draft :=
  (b.current.assign? path name item).map fun current => { b with current }

end Draft

/-- A table whose first entry has this name stands for a date. -/
def dateName : String := "$__toml_private_datetime"

/-- The date that such an entry spells. -/
def Item.date? : Item → Option String
  | .text s | .date s =>
    match Toml.date? s.toList with
    | some (normal, []) => some (String.ofList normal)
    | _ => none
  | _ => none

namespace Item

mutual

/-- The generic value of an item; numbers that are not finite become null, dates texts. -/
def toValue? : Item → Option Value
  | .boolean b => some (.bool b)
  | .number (.whole n) => some (.int n)
  | .number (.floating x) => some (if x.isFinite then .float x else .null)
  | .text s => some (.str s)
  | .date s => some (.str s)
  | .array items => (toValues? items).map .arr
  | .table _ entries => tableValue? entries
  | .tables elements => (tableValues? elements).map fun vs => .arr vs.reverse

def tableValue? : List (String × Item) → Option Value
  | [] => some (.obj [])
  | (name, item) :: rest =>
    if name = dateName then item.date?.map .str
    else do
      let v ← toValue? item
      let fields ← toFields? rest
      return .obj (Fields.ofEntries ((name, v) :: fields))

def toValues? : List Item → Option (List Value)
  | [] => some []
  | item :: rest => do return (← toValue? item) :: (← toValues? rest)

def toFields? : List (String × Item) → Option (List (String × Value))
  | [] => some []
  | (name, item) :: rest => do return (name, ← toValue? item) :: (← toFields? rest)

def tableValues? : List (List (String × Item)) → Option (List Value)
  | [] => some []
  | entries :: rest => do return (← tableValue? entries) :: (← tableValues? rest)

end

end Item

end ServiceMaps.Toml
