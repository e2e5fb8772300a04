/-!
Binary floating-point numbers with 53 significant bits, kept as exact data: a finite
number is `± m · 2^q`. Every arithmetic result is an exact quotient of natural numbers
that `ofRatio` rounds once, to the nearest number and on a tie to the even one, so no
law about the processor's arithmetic is needed. Equality of data and equality of numbers
differ, and the second is `same`: the two zeros are the same number and "not a number"
is the same as nothing.
-/
namespace ServiceMaps

-- A power of whole numbers is the one of the core library in every module, also in one that knows
-- the powers of monoids.
attribute [default_instance 20000] instPowNat
attribute [instance (2000)] instPowNat

/-- A number of the 64-bit binary format; `finite negative m q` stands for `± m · 2^q`. -/
inductive Binary64 where
  | finite (negative : Bool) (significand : Nat) (exponent : Int)
  | infinite (negative : Bool)
  | nan
  deriving DecidableEq, Repr, Inhabited

namespace Binary64

/-- The least exponent; numbers below `2^52 · 2^-1074` share it. -/
def minExponent : Int := -1074

/-- The greatest exponent of a finite number. -/
def maxExponent : Int := 971

/-- The one form of each finite number: 53 significant bits, or fewer at the least exponent. -/
def Canonical : Binary64 → Prop
  | .finite _ m q => m < 2 ^ 53 ∧ minExponent ≤ q ∧ q ≤ maxExponent ∧ (2 ^ 52 ≤ m ∨ q = minExponent)
  | .infinite _ => True
  | .nan => True

def zero (negative : Bool) : Binary64 := .finite negative 0 minExponent

/-- The nearest natural number to `num / den`, the even one of two equally near. -/
def roundQuotient (num den : Nat) : Nat :=
  let floor := num / den
  let twice := 2 * (num % den)
  if twice < den then floor
  else if den < twice then floor + 1
  else floor + floor % 2

/-- `num / den / 2^q` as a quotient of natural numbers. -/
def scaled (num den : Nat) (q : Int) : Nat × Nat :=
  if 0 ≤ q then (num, den * 2 ^ q.toNat) else (num * 2 ^ (-q).toNat, den)

/-- The exponent at which `num / den` has exactly 53 bits before the point. -/
def fullExponent (num den : Nat) : Int :=
  let q : Int := (Nat.log2 num : Int) - Nat.log2 den - 52
  let (n, d) := scaled num den q
  if n / d < 2 ^ 52 then q - 1 else q

/-- Carries a rounded significand into range; a number that is too great becomes infinite. -/
def pack (negative : Bool) (m : Nat) (q : Int) : Binary64 :=
  let (m, q) := if m = 2 ^ 53 then (2 ^ 52, q + 1) else (m, q)
  if maxExponent < q then .infinite negative else .finite negative m q

/-- The number nearest to `± num / den`. -/
def ofRatio (negative : Bool) (num den : Nat) : Binary64 :=
  if num = 0 then zero negative
  else
    let q := max (fullExponent num den) minExponent
    let (n, d) := scaled num den q
    pack negative (roundQuotient n d) q

def ofInt (n : Int) : Binary64 := ofRatio (n < 0) n.natAbs 1

/-- The number nearest to `± digits · 10^exponent`. Far outside the format's range the power
is not computed: such a number is infinite or zero. -/
def ofDecimal (negative : Bool) (digits : Nat) (exponent : Int) : Binary64 :=
  if digits = 0 then zero negative
  else if 400 < exponent then .infinite negative
  else if exponent + Nat.log2 digits + 1 < -400 then zero negative
  else if 0 ≤ exponent then ofRatio negative (digits * 10 ^ exponent.toNat) 1
  else ofRatio negative digits (10 ^ (-exponent).toNat)

/-- A magnitude `m · 2^q` as a quotient of natural numbers. -/
def quotient (m : Nat) (q : Int) : Nat × Nat := scaled m 1 (-q)

def isFinite : Binary64 → Bool
  | .finite .. => true
  | _ => false

def isZero : Binary64 → Bool
  | .finite _ 0 _ => true
  | _ => false

def isInfinite : Binary64 → Bool
  | .infinite _ => true
  | _ => false

def isNegative : Binary64 → Bool
  | .finite s .. => s
  | .infinite s => s
  | .nan => false

def neg : Binary64 → Binary64
  | .finite s m q => .finite (!s) m q
  | .infinite s => .infinite (!s)
  | .nan => .nan

/-- The exact product, rounded once. -/
def mul : Binary64 → Binary64 → Binary64
  | .finite s m q, .finite t n r =>
    let (a, b) := quotient m q
    let (c, d) := quotient n r
    ofRatio (s != t) (a * c) (b * d)
  | .nan, _ => .nan
  | _, .nan => .nan
  | x, y => if x.isZero || y.isZero then .nan else .infinite (x.isNegative != y.isNegative)

/-- The exact quotient, rounded once; a nonzero number divided by zero is infinite. -/
def div : Binary64 → Binary64 → Binary64
  | .finite s m q, .finite t n r =>
    if n = 0 then (if m = 0 then .nan else .infinite (s != t))
    else
      let (a, b) := quotient m q
      let (c, d) := quotient n r
      ofRatio (s != t) (a * d) (b * c)
  | .nan, _ => .nan
  | _, .nan => .nan
  | .infinite s, .finite t .. => .infinite (s != t)
  | .finite s .., .infinite t => zero (s != t)
  | .infinite _, .infinite _ => .nan

/-- Equality as numbers. -/
def same : Binary64 → Binary64 → Bool
  | .nan, _ => false
  | _, .nan => false
  | x, y => (x.isZero && y.isZero) || x == y

/-- The whole number that a finite number equals, if it equals one. -/
def toInt? : Binary64 → Option Int
  | .finite s m q =>
    let (n, d) := quotient m q
    if n % d = 0 then some (if s then -(n / d : Nat) else (n / d : Nat)) else none
  | _ => none

end Binary64

end ServiceMaps
