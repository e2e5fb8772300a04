import ServiceMaps.Toml.Text
import ServiceMaps.Toml.Tree

/-!
Reading TOML: lines with headers, keys and values. Arrays run over several lines and may end
in a comma; tables in braces may do neither.
-/
namespace ServiceMaps.Toml

/-- Passes over blanks, comments and line feeds inside an array. -/
def skipLines : (comment : Bool) → List Char → List Char
  | _, [] => []
  | comment, c :: rest =>
    if c = '\n' then skipLines false rest
    else if comment then (if isTextual c then skipLines true rest else c :: rest)
    else if isBlank c then skipLines false rest
    else if c = '#' then skipLines true rest
    else c :: rest

/-- Splits a key into its path and its last part. -/
def splitKey? (parts : List String) : Option (List String × String) :=
  parts.getLast?.map (parts.dropLast, ·)

mutual

/-- Reads a value; `depth` counts the collections that may still be opened. -/
def value? : (fuel depth : Nat) → List Char → Option (Item × List Char)
  | 0, _, _ => none
  | fuel + 1, depth, cs =>
    match cs with
    | '"' :: _ | '\'' :: _ => (string? cs).map fun (s, rest) => (.text (String.ofList s), rest)
    | '[' :: rest =>
      if depth ≤ 1 then none
      else (items? fuel (depth - 1) rest).map fun (items, rest) => (.array items, rest)
    | '\x7b' :: rest =>
      if depth ≤ 1 then none
      else match skipBlanks rest with
        | '\x7d' :: rest => some (.table .braces [], rest)
        | rest => (members? fuel (depth - 1) [] rest).map fun (entries, rest) =>
          (.table .braces entries, rest)
    | 't' :: 'r' :: 'u' :: 'e' :: rest => some (.boolean true, rest)
    | 'f' :: 'a' :: 'l' :: 's' :: 'e' :: rest => some (.boolean false, rest)
    | cs =>
      match date? cs with
      | some (text, rest) => some (.date (String.ofList text), rest)
      | none => (number? cs).map fun (n, rest) => (.number n, rest)

/-- Reads the items of an array up to its end. -/
def items? : (fuel depth : Nat) → List Char → Option (List Item × List Char)
  | 0, _, _ => none
  | fuel + 1, depth, cs =>
    match skipLines false cs with
    | ']' :: rest => some ([], rest)
    | cs => do
      let (item, rest) ← value? fuel depth cs
      match skipLines false rest with
      | ',' :: rest =>
        let (items, rest) ← items? fuel depth rest
        return (item :: items, rest)
      | ']' :: rest => return ([item], rest)
      | _ => none

/-- Reads the members of a table in braces up to its end; at least one is there. -/
def members? : (fuel depth : Nat) → Entries → List Char → Option (Entries × List Char)
  | 0, _, _, _ => none
  | fuel + 1, depth, entries, cs => do
    let (parts, rest) ← key? cs
    let (path, name) ← splitKey? parts
    let rest ← char? '=' rest
    let (item, rest) ← value? fuel depth (skipBlanks rest)
    let entries ← entries.assign? path name item
    match skipBlanks rest with
    | ',' :: rest => members? fuel depth entries rest
    | '\x7d' :: rest => return (entries, rest)
    | _ => none

end

/-- Reads a header behind its opening bracket or brackets. -/
def header? (repeated : Bool) (b : Draft) (cs : List Char) : Option (Draft × List Char) := do
  let (parts, rest) ← key? cs
  let (path, name) ← splitKey? parts
  let rest ← char? ']' rest
  let rest ← if repeated then char? ']' rest else some rest
  let rest ← endLine? rest
  let b ← if repeated then b.openRepeated? path name else b.openTable? path name
  return (b, rest)

/-- Reads a line with a key and its value. -/
def assignment? (b : Draft) (cs : List Char) : Option (Draft × List Char) := do
  let (parts, rest) ← key? cs
  let (path, name) ← splitKey? parts
  let rest ← char? '=' rest
  let (item, rest) ← value? (2 * rest.length + 2) maxDepth (skipBlanks rest)
  let rest ← endLine? rest
  return (← b.assign? path name item, rest)

/-- Reads line after line; every line takes at least one character. -/
def lines? : Nat → Draft → List Char → Option Entries
  | 0, _, _ => none
  | fuel + 1, b, cs =>
    match skipBlanks cs with
    | [] => b.close?
    | '\n' :: rest => lines? fuel b rest
    | '#' :: rest => (endLine? ('#' :: rest)).bind (lines? fuel b)
    | '[' :: '[' :: rest => (header? true b rest).bind fun (b, rest) => lines? fuel b rest
    | '[' :: rest => (header? false b rest).bind fun (b, rest) => lines? fuel b rest
    | rest => (assignment? b rest).bind fun (b, rest) => lines? fuel b rest

/-- The tables of a text. A byte order mark at the start is passed over. -/
def tree? (text : String) : Option Entries :=
  let cs := match text.toList with
    | '\ufeff' :: rest => unify rest
    | cs => unify cs
  lines? (cs.length + 1) .start cs

/-- Reads a whole text as a generic value. -/
def read? (text : String) : Option Value := (tree? text).bind Item.tableValue?

end ServiceMaps.Toml
