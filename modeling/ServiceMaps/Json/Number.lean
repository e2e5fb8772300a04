import ServiceMaps.Number.Digits

/-!
Numbers in JSON. Whole numbers that fit 64 bits stay whole. Every other number is gathered in
two steps: its digits make a whole number as long as they fit 64 bits unsigned, later digits
only count or are dropped; that number is rounded to floating form, and then multiplied or
divided once by a power of ten. The result may differ in its last place from the number that
is nearest to the numeral.
-/
namespace ServiceMaps.Json

/-- The greatest unsigned 64-bit number. -/
def maxWord : Nat := 2 ^ 64 - 1

/-- The greatest exponent that is read; a greater one means infinity or zero at once. -/
def maxExponent : Nat := 2 ^ 31 - 1

/-- A number being read: the digits gathered so far and the power of ten to scale them by. -/
structure Gathered where
  significand : Nat
  exponent : Int
  deriving DecidableEq, Repr

/-- Whether another digit still fits. -/
def Gathered.hasRoom (g : Gathered) (digit : Nat) : Bool := g.significand * 10 + digit ≤ maxWord

def digitOf (c : Char) : Nat := c.toNat - '0'.toNat

/-- Takes the digits before the point. The first that does not fit makes all further ones count
only as powers of ten. -/
def gatherWhole (g : Gathered) : (full : Bool) → List Char → Gathered × Bool
  | full, [] => (g, full)
  | true, _ :: cs => gatherWhole { g with exponent := g.exponent + 1 } true cs
  | false, c :: cs =>
    if g.hasRoom (digitOf c) then
      gatherWhole { g with significand := g.significand * 10 + digitOf c } false cs
    else gatherWhole { g with exponent := g.exponent + 1 } true cs

/-- Takes the digits after the point, up to the first that does not fit. -/
def gatherFraction (g : Gathered) : List Char → Gathered
  | [] => g
  | c :: cs =>
    if g.hasRoom (digitOf c) then
      gatherFraction ⟨g.significand * 10 + digitOf c, g.exponent - 1⟩ cs
    else g

/-- The power `10^n`, rounded. -/
def power (n : Nat) : Binary64 := .ofDecimal false 1 n

/-- Divides by great powers of ten until the exponent is one that a power exists for. -/
def scaleDown : Nat → Binary64 → Int → Binary64
  | 0, x, _ => x
  | fuel + 1, x, e =>
    if -308 ≤ e then x.div (power (-e).toNat)
    else if x.isZero then x
    else scaleDown fuel (x.div (power 308)) (e + 308)

/-- Scales a whole number; nothing if the result is too great. -/
def scale? (g : Gathered) : Option Binary64 :=
  let x := Binary64.ofInt g.significand
  if 0 ≤ g.exponent then
    if g.exponent ≤ 308 then
      let y := x.mul (power g.exponent.toNat)
      if y.isInfinite then none else some y
    else if x.isZero then some x
    else none
  else some (scaleDown 5 x g.exponent)

def signed (negative : Bool) (x : Binary64) : Binary64 := if negative then x.neg else x

/-- An exponent behind its letter: an optional sign and digits. -/
def exponent? (cs : List Char) : Option (Bool × Nat × List Char) :=
  let (negative, cs) := match cs with
    | '+' :: rest => (false, rest)
    | '-' :: rest => (true, rest)
    | cs => (false, cs)
  let digits := cs.takeWhile isDecimalDigit
  (whole? 10 digits).map fun n => (negative, n, cs.dropWhile isDecimalDigit)

/-- The floating number of gathered digits and an exponent. -/
def withExponent? (g : Gathered) (negative : Bool) (n : Nat) : Option Binary64 :=
  if maxExponent < n then
    if negative || g.significand = 0 then some (.zero false) else none
  else scale? { g with exponent := if negative then g.exponent - n else g.exponent + n }

/-- A number without point and exponent. Negative zero has no whole form. -/
def wholeNumber? (negative : Bool) (g : Gathered) (full : Bool) : Option Number :=
  if full then (scale? g).map fun x => .floating (signed negative x)
  else if negative then
    if g.significand = 0 || 2 ^ 63 < g.significand then
      some (.floating (.neg (.ofInt g.significand)))
    else some (.whole (-g.significand))
  else some (.whole g.significand)

/-- Reads a number behind its sign. A zero in front stands alone before the point, and a digit
follows the point. -/
def unsigned? (negative : Bool) (cs : List Char) : Option (Number × List Char) := do
  let digits := cs.takeWhile isDecimalDigit
  let rest := cs.dropWhile isDecimalDigit
  if digits.isEmpty || (digits.head? = some '0' && 1 < digits.length) then none
  else
    let (g, full) := gatherWhole ⟨0, 0⟩ false digits
    let (g, fraction, rest) ← match rest with
      | '.' :: tail =>
        let digits := tail.takeWhile isDecimalDigit
        if digits.isEmpty then none
        else some (gatherFraction g digits, true, tail.dropWhile isDecimalDigit)
      | rest => some (g, false, rest)
    match rest with
    | c :: tail =>
      if c = 'e' || c = 'E' then
        let (negativeExponent, n, rest) ← exponent? tail
        let x ← withExponent? g negativeExponent n
        return (.floating (signed negative x), rest)
      else if fraction then return (.floating (signed negative (← scale? g)), c :: tail)
      else return (← wholeNumber? negative g full, c :: tail)
    | [] =>
      if fraction then return (.floating (signed negative (← scale? g)), [])
      else return (← wholeNumber? negative g full, [])

/-- Reads a number, with a minus sign or none. -/
def number? : List Char → Option (Number × List Char)
  | '-' :: cs => unsigned? true cs
  | cs => unsigned? false cs

end ServiceMaps.Json
