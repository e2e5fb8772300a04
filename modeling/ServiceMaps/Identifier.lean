import ServiceMaps.Kind
import ServiceMaps.Number.Digits

/-!
Identifiers of documents and their parts: a kind, a type and a unique part with colons between
them. New ones come from an `IdSource`: a sequence numbers them under a given label, and random
bits make one that is unique everywhere.
-/
namespace ServiceMaps

/-- The parts of a text between separators; there is always one more part than separators. -/
def partsAt (separator : Char) : List Char → List (List Char)
  | [] => [[]]
  | c :: rest =>
    if c = separator then [] :: partsAt separator rest
    else match partsAt separator rest with
      | [] => [[c]]
      | part :: parts => (c :: part) :: parts

/-- The three parts of an identifier. -/
structure Identifier where
  kind : String
  entity : String
  unique : String
  deriving DecidableEq, Repr

namespace Identifier

/-- The text of an identifier. -/
def text (i : Identifier) : String := i.kind ++ ":" ++ i.entity ++ ":" ++ i.unique

/-- Takes a text apart that has exactly three parts. -/
def parse? (s : String) : Option Identifier :=
  match partsAt ':' s.toList with
  | [kind, entity, unique] =>
    some ⟨String.ofList kind, String.ofList entity, String.ofList unique⟩
  | _ => none

end Identifier

/-- A supply of identifiers for given kinds and types. -/
structure IdSource (σ : Type) where
  draw : String → String → σ → String × σ

/-- Identifiers that are numbered from zero under a label. The number is a 64-bit word. -/
structure IdSequence where
  label : String
  next : UInt64
  deriving DecidableEq, Repr

namespace IdSequence

def start (label : String) : IdSequence := ⟨label, 0⟩

def draw (kind entity : String) (s : IdSequence) : String × IdSequence :=
  ((Identifier.mk kind entity (s.label ++ "-" ++ toString s.next.toNat)).text,
    { s with next := s.next + 1 })

def source : IdSource IdSequence := ⟨draw⟩

end IdSequence

namespace Uuid

/-- The digits of a number in groups of given lengths, the lowest digits last. -/
def groups (n : Nat) : List Nat → List (List Char)
  | [] => []
  | length :: rest =>
    hexDigits lowerHex length (n / 16 ^ rest.sum) :: groups n rest

/-- The lengths of the groups of digits. -/
def shape : List Nat := [8, 4, 4, 4, 12]

/-- Sets the version digit to four and the variant bits to one and zero. -/
def stamp (bits : Nat) : Nat :=
  let high := bits / 2 ^ 80 % 2 ^ 48
  let middle := bits / 2 ^ 64 % 2 ^ 12
  let low := bits % 2 ^ 62
  high * 2 ^ 80 + (4 * 2 ^ 12 + middle) * 2 ^ 64 + (2 * 2 ^ 62 + low)

/-- The universally unique identifier, version four, that 128 random bits make. -/
def ofBits (bits : Nat) : String :=
  String.intercalate "-" ((groups (stamp bits) shape).map String.ofList)

def isLowerHex (c : Char) : Bool := ('0' ≤ c && c ≤ '9') || ('a' ≤ c && c ≤ 'f')

/-- Whether a text is a universally unique identifier, version four, in lower case. -/
def isVersion4 (s : String) : Bool :=
  let parts := partsAt '-' s.toList
  parts.map List.length = shape && parts.all (·.all isLowerHex)
    && (parts[2]?.bind List.head?) = some '4'
    && (parts[3]?.bind List.head?).any fun c => c = '8' || c = '9' || c = 'a' || c = 'b'

end Uuid

/-- Identifiers from a stream of random numbers of 128 bits. -/
def randomIds : IdSource (List Nat) :=
  ⟨fun kind entity bits =>
    ((Identifier.mk kind entity (Uuid.ofBits (bits.headD 0))).text, bits.drop 1)⟩

end ServiceMaps
