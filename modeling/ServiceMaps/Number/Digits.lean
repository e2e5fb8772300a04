import ServiceMaps.Number.Binary64

/-!
Digits. `whole?` reads the digits of any base up to sixteen as a natural number, `hexDigits`
writes a number in base sixteen, and `scalar?` is the character that a code point stands for.
-/
namespace ServiceMaps

/-- A number as a text spells it. -/
inductive Number where
  | whole (n : Int)
  | floating (x : Binary64)
  deriving DecidableEq, Repr

/-- The value of a digit of a base up to sixteen. -/
def digitValue? (base : Nat) (c : Char) : Option Nat :=
  let value : Option Nat :=
    if '0' ≤ c && c ≤ '9' then some (c.toNat - '0'.toNat)
    else if 'a' ≤ c && c ≤ 'f' then some (c.toNat - 'a'.toNat + 10)
    else if 'A' ≤ c && c ≤ 'F' then some (c.toNat - 'A'.toNat + 10)
    else none
  value.filter (· < base)

def isDecimalDigit (c : Char) : Bool := '0' ≤ c && c ≤ '9'

/-- The number that digits spell after a leading part. -/
def spelledFrom (base : Nat) : Nat → List Char → Option Nat
  | n, [] => some n
  | n, c :: cs => do spelledFrom base (n * base + (← digitValue? base c)) cs

/-- The number that one or more digits spell. -/
def whole? (base : Nat) : List Char → Option Nat
  | [] => none
  | cs => spelledFrom base 0 cs

/-- A number as digits with an optional sign. -/
def signed? (base : Nat) : List Char → Option Int
  | '+' :: cs => (whole? base cs).map Int.ofNat
  | '-' :: cs => (whole? base cs).map fun n => -Int.ofNat n
  | cs => (whole? base cs).map Int.ofNat

def lowerHex (n : Nat) : Char := if n < 10 then Char.ofNat (48 + n) else Char.ofNat (87 + n)

def upperHex (n : Nat) : Char := if n < 10 then Char.ofNat (48 + n) else Char.ofNat (55 + n)

/-- The last `width` digits of a number in base sixteen. -/
def hexDigits (digit : Nat → Char) (width n : Nat) : List Char :=
  (List.range width).reverse.map fun i => digit (n / 16 ^ i % 16)

/-- The character of a code point; surrogates and numbers beyond the last one have none. -/
def scalar? (n : Nat) : Option Char :=
  if (0xd800 ≤ n && n ≤ 0xdfff) || 0x10ffff < n then none else some (Char.ofNat n)

end ServiceMaps
