import ServiceMaps.Number.Digits

/-!
Decimal numerals. A `Literal` is a decimal fraction as it is spelled: a sign, all its digits as
one natural number and a power of ten. `Binary64.ofText?` reads what is not finite as well.
-/
namespace ServiceMaps

/-- A decimal numeral `± digits · 10^exponent`. -/
structure Literal where
  negative : Bool
  digits : Nat
  exponent : Int
  deriving DecidableEq, Repr

namespace Literal

def value (l : Literal) : Binary64 := .ofDecimal l.negative l.digits l.exponent

/-- The power of ten after the digits: nothing, or `e` and a signed whole number. -/
def exponent? : List Char → Option Int
  | [] => some 0
  | c :: cs => if c = 'e' || c = 'E' then signed? 10 cs else none

/-- Digits, perhaps a point with further digits, perhaps an exponent; at least one digit
stands before or after the point. -/
def unsigned? (negative : Bool) (cs : List Char) : Option Literal := do
  let before := cs.takeWhile isDecimalDigit
  let rest := cs.dropWhile isDecimalDigit
  let (after, tail) :=
    match rest with
    | '.' :: r => (r.takeWhile isDecimalDigit, r.dropWhile isDecimalDigit)
    | r => ([], r)
  let digits ← whole? 10 (before ++ after)
  let exponent ← exponent? tail
  pure ⟨negative, digits, exponent - after.length⟩

/-- An optional sign before an unsigned numeral. -/
def read? : List Char → Option Literal
  | '+' :: cs => unsigned? false cs
  | '-' :: cs => unsigned? true cs
  | cs => unsigned? false cs

end Literal

namespace Binary64

/-- The names of what is not finite, in any mixture of cases. -/
def named? (negative : Bool) (cs : List Char) : Option Binary64 :=
  match String.ofList (cs.map Char.toLower) with
  | "inf" | "infinity" => some (.infinite negative)
  | "nan" => some .nan
  | _ => none

/-- Reads a decimal numeral, or a name of what is not finite with an optional sign. -/
def ofText? (s : String) : Option Binary64 :=
  match Literal.read? s.toList with
  | some l => some l.value
  | none =>
    match s.toList with
    | '+' :: cs => named? false cs
    | '-' :: cs => named? true cs
    | cs => named? false cs

end Binary64

end ServiceMaps
