import ServiceMaps.Yaml.Token

/-!
The tree of a YAML document: scalars, sequences, mappings and aliases, before any scalar is
given a type. Anchors are numbered: a new anchor gets the number of different names used
before it in the document, and an alias carries the number that its name had last.
`Node.ofTokens?` reads the tree of one node by recursive descent.
-/
namespace ServiceMaps.Yaml

inductive Node where
  | scalar (anchor : Option Nat) (tag : Option Tag) (text : String) (plain : Bool)
  | sequence (anchor : Option Nat) (tag : Option Tag) (items : List Node)
  | mapping (anchor : Option Nat) (tag : Option Tag) (entries : List (Node × Node))
  | alias (number : Nat)
  deriving Inhabited

namespace Node

/-- What an absent node reads as. -/
def absent : Node := .scalar none none "" true

mutual

/-- How many scalars, aliases and ends of collections a tree has. -/
def size : Node → Nat
  | .scalar .. => 1
  | .sequence _ _ items => 2 + sizeItems items
  | .mapping _ _ entries => 2 + sizeEntries entries
  | .alias _ => 1

def sizeItems : List Node → Nat
  | [] => 0
  | n :: rest => size n + sizeItems rest

def sizeEntries : List (Node × Node) → Nat
  | [] => 0
  | (k, v) :: rest => size k + size v + sizeEntries rest

end

mutual

/-- The anchored nodes with their numbers, in the order in which they start. -/
def anchored : Node → List (Nat × Node)
  | .scalar a t text plain => (a.map (·, .scalar a t text plain)).toList
  | .sequence a t items => (a.map (·, .sequence a t items)).toList ++ anchoredItems items
  | .mapping a t entries => (a.map (·, .mapping a t entries)).toList ++ anchoredEntries entries
  | .alias _ => []

def anchoredItems : List Node → List (Nat × Node)
  | [] => []
  | n :: rest => anchored n ++ anchoredItems rest

def anchoredEntries : List (Node × Node) → List (Nat × Node)
  | [] => []
  | (k, v) :: rest => anchored k ++ anchored v ++ anchoredEntries rest

end

/-- Where reading stands: the tokens to come, and the numbers of the anchors so far. -/
structure Cursor where
  tokens : List Token
  anchors : List (String × Nat)

namespace Cursor

def move (tokens : List Token) (c : Cursor) : Cursor := { c with tokens }

/-- Numbers an anchor; a name used before stays one name. -/
def declare (name : String) (c : Cursor) : Nat × Cursor :=
  let number := c.anchors.length
  (number, { c with anchors := (name, number) :: c.anchors.filter (·.1 ≠ name) })

def declare? (name : Option String) (c : Cursor) : Option Nat × Cursor :=
  match name with
  | none => (none, c)
  | some name => let (n, c) := c.declare name; (some n, c)

end Cursor

/-- The anchor and the tag in front of a node, in either order. -/
def properties : List Token → Option String × Option TagSpelling × List Token
  | .anchor a :: .tag t :: rest => (some a, some t, rest)
  | .tag t :: .anchor a :: rest => (some a, some t, rest)
  | .anchor a :: rest => (some a, none, rest)
  | .tag t :: rest => (none, some t, rest)
  | rest => (none, none, rest)

/-- The handles in force. -/
abbrev Handles := List (String × List Nat)

def resolveTag? (handles : Handles) : Option TagSpelling → Option (Option Tag)
  | none => some none
  | some t => (t.resolve? handles).map some

/-- The tokens before which the node of a block entry is absent. -/
def endsBlockItem : List Token → Bool
  | .blockEntry :: _ | .blockEnd :: _ => true
  | _ => false

def endsBlockPart : List Token → Bool
  | .key :: _ | .value :: _ | .blockEnd :: _ => true
  | _ => false

def endsFlowItem : List Token → Bool
  | .flowEntry :: _ | .flowSequenceEnd :: _ => true
  | _ => false

def endsFlowPart : List Token → Bool
  | .flowEntry :: _ | .flowMappingEnd :: _ => true
  | _ => false

/-- The comma between two entries of a flow collection; none stands before the first. -/
def separator? (first : Bool) : List Token → Option (List Token)
  | .flowEntry :: rest => if first then some (.flowEntry :: rest) else some rest
  | tokens => if first then some tokens else none

/-- A node with an anchor or a tag and nothing else has the absent content. -/
def propertiesOnly? (anchor : Option Nat) (tag : Option Tag) (c : Cursor) :
    Option (Node × Cursor) :=
  if anchor.isSome || tag.isSome then some (.scalar anchor tag "" true, c) else none

mutual

/-- Reads a node. `block` allows block collections, and `bare` a sequence that is not indented
more than the mapping around it. -/
def node? (handles : Handles) (block bare : Bool) : Nat → Cursor → Option (Node × Cursor)
  | 0, _ => none
  | fuel + 1, c =>
    match c.tokens with
    | .alias name :: rest => (c.anchors.lookup name).map fun n => (.alias n, c.move rest)
    | _ => do
      let (name, spelling, tokens) := properties c.tokens
      let tag ← resolveTag? handles spelling
      let (anchor, c) := (c.move tokens).declare? name
      match tokens with
      | .scalar text plain :: rest => return (.scalar anchor tag text plain, c.move rest)
      | .flowSequence :: rest =>
        let (items, c) ← flowItems? handles true fuel (c.move rest)
        return (.sequence anchor tag items, c)
      | .flowMapping :: rest =>
        let (entries, c) ← flowEntries? handles true fuel (c.move rest)
        return (.mapping anchor tag entries, c)
      | .blockSequence :: rest =>
        if block then
          let (items, c) ← blockItems? handles fuel (c.move rest)
          return (.sequence anchor tag items, c)
        else propertiesOnly? anchor tag c
      | .blockMapping :: rest =>
        if block then
          let (entries, c) ← blockEntries? handles fuel (c.move rest)
          return (.mapping anchor tag entries, c)
        else propertiesOnly? anchor tag c
      | .blockEntry :: _ =>
        if bare then
          let (items, c) ← bareItems? handles fuel c
          return (.sequence anchor tag items, c)
        else propertiesOnly? anchor tag c
      | _ => propertiesOnly? anchor tag c

/-- The items of an indented block sequence. -/
def blockItems? (handles : Handles) : Nat → Cursor → Option (List Node × Cursor)
  | 0, _ => none
  | fuel + 1, c =>
    match c.tokens with
    | .blockEntry :: rest => do
      let (item, c) ←
        if endsBlockItem rest then some (absent, c.move rest)
        else node? handles true false fuel (c.move rest)
      let (items, c) ← blockItems? handles fuel c
      return (item :: items, c)
    | .blockEnd :: rest => some ([], c.move rest)
    | _ => none

/-- The items of a block sequence at the column of the mapping around it. -/
def bareItems? (handles : Handles) : Nat → Cursor → Option (List Node × Cursor)
  | 0, _ => none
  | fuel + 1, c =>
    match c.tokens with
    | .blockEntry :: rest => do
      let (item, c) ←
        if endsBlockItem rest || endsBlockPart rest then some (absent, c.move rest)
        else node? handles true false fuel (c.move rest)
      let (items, c) ← bareItems? handles fuel c
      return (item :: items, c)
    | _ => some ([], c)

/-- The entries of a block mapping. -/
def blockEntries? (handles : Handles) : Nat → Cursor → Option (List (Node × Node) × Cursor)
  | 0, _ => none
  | fuel + 1, c =>
    match c.tokens with
    | .key :: rest => do
      let (k, c) ← blockPart? handles fuel (c.move rest)
      let (v, c) ←
        match c.tokens with
        | .value :: rest => blockPart? handles fuel (c.move rest)
        | _ => some (absent, c)
      let (entries, c) ← blockEntries? handles fuel c
      return ((k, v) :: entries, c)
    | .blockEnd :: rest => some ([], c.move rest)
    | _ => none

/-- The key or the value of an entry of a block mapping. -/
def blockPart? (handles : Handles) : Nat → Cursor → Option (Node × Cursor)
  | 0, _ => none
  | fuel + 1, c =>
    if endsBlockPart c.tokens then some (absent, c) else node? handles true true fuel c

/-- The items of a flow sequence; an item with a key is a mapping of one entry. -/
def flowItems? (handles : Handles) (first : Bool) : Nat → Cursor → Option (List Node × Cursor)
  | 0, _ => none
  | fuel + 1, c =>
    match c.tokens with
    | .flowSequenceEnd :: rest => some ([], c.move rest)
    | tokens => do
      let tokens ← separator? first tokens
      match tokens with
      | .flowSequenceEnd :: rest => return ([], c.move rest)
      | .key :: rest =>
        let (entry, c) ← flowPair? handles fuel (c.move rest)
        let (items, c) ← flowItems? handles false fuel c
        return (.mapping none none [entry] :: items, c)
      | _ =>
        let (item, c) ← node? handles false false fuel (c.move tokens)
        let (items, c) ← flowItems? handles false fuel c
        return (item :: items, c)

/-- The entry that is an item of a flow sequence. Where its key is absent the next token is
lost. -/
def flowPair? (handles : Handles) : Nat → Cursor → Option ((Node × Node) × Cursor)
  | 0, _ => none
  | fuel + 1, c => do
    let (k, c) ←
      match c.tokens with
      | .value :: rest => some (absent, c.move rest)
      | tokens =>
        if endsFlowItem tokens then some (absent, c.move (tokens.drop 1))
        else node? handles false false fuel c
    match c.tokens with
    | .value :: rest =>
      if endsFlowItem rest then return ((k, absent), c.move rest)
      else
        let (v, c) ← node? handles false false fuel (c.move rest)
        return ((k, v), c)
    | _ => return ((k, absent), c)

/-- The entries of a flow mapping. -/
def flowEntries? (handles : Handles) (first : Bool) :
    Nat → Cursor → Option (List (Node × Node) × Cursor)
  | 0, _ => none
  | fuel + 1, c =>
    match c.tokens with
    | .flowMappingEnd :: rest => some ([], c.move rest)
    | tokens => do
      let tokens ← separator? first tokens
      match tokens with
      | .flowMappingEnd :: rest => return ([], c.move rest)
      | .key :: rest =>
        let (entry, c) ← flowEntry? handles fuel (c.move rest)
        let (entries, c) ← flowEntries? handles false fuel c
        return (entry :: entries, c)
      | _ =>
        let (k, c) ← node? handles false false fuel (c.move tokens)
        let (entries, c) ← flowEntries? handles false fuel c
        return ((k, absent) :: entries, c)

/-- An entry of a flow mapping behind its key token. -/
def flowEntry? (handles : Handles) : Nat → Cursor → Option ((Node × Node) × Cursor)
  | 0, _ => none
  | fuel + 1, c => do
    let (k, c) ←
      match c.tokens with
      | .value :: _ => some (absent, c)
      | tokens =>
        if endsFlowPart tokens then some (absent, c)
        else node? handles false false fuel c
    match c.tokens with
    | .value :: rest =>
      if endsFlowPart rest then return ((k, absent), c.move rest)
      else
        let (v, c) ← node? handles false false fuel (c.move rest)
        return ((k, v), c)
    | _ => return ((k, absent), c)

end

/-- Reads one node, with as many steps as the tokens can take. -/
def ofTokens? (handles : Handles) (tokens : List Token) : Option (Node × List Token) :=
  (node? handles true false (3 * tokens.length + 3) ⟨tokens, []⟩).map fun (n, c) => (n, c.tokens)

end Node

end ServiceMaps.Yaml
