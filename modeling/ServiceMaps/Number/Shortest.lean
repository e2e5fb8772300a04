import ServiceMaps.Number.Binary64

/-!
The shortest decimal text of a binary number. `shortest` finds the fewest decimal digits
that read back as the number: for one digit, two digits and so on it tests the number's two
neighbours on that decimal grid, and the first grid with a hit wins; of two hits the nearer.
A `DecimalStyle` then says where the point stands and how an exponent is written.
-/
namespace ServiceMaps

/-- The decimal number `digits · 10^exponent`. -/
structure Decimal where
  digits : Nat
  exponent : Int
  deriving DecidableEq, Repr

namespace Decimal

/-- Seventeen digits always suffice. -/
def enough : Nat := 17

/-- `num / den / 10^k` as a quotient of natural numbers. -/
def scaled (num den : Nat) (k : Int) : Nat × Nat :=
  if 0 ≤ k then (num, den * 10 ^ k.toNat) else (num * 10 ^ (-k).toNat, den)

/-- The exponent of the leading decimal digit of `num / den`, estimated from the binary
lengths and corrected by one either way. -/
def magnitude (num den : Nat) : Int :=
  let estimate := ((Nat.log2 num : Int) - Nat.log2 den) * 30103 / 100000
  let (a, b) := scaled num den (estimate + 1)
  if b ≤ a then estimate + 1
  else
    let (a, b) := scaled num den estimate
    if a < b then estimate - 1 else estimate

/-- Moves trailing zeros of the digits into the exponent. -/
def strip : Nat → Decimal → Decimal
  | 0, d => d
  | fuel + 1, d =>
    if d.digits % 10 = 0 then strip fuel ⟨d.digits / 10, d.exponent + 1⟩ else d

/-- The neighbour of `num / den` on the grid of step `10^k` that reads back as `x`; the nearer
one if both do. -/
def neighbour? (x : Binary64) (num den : Nat) (k : Int) : Option Decimal :=
  let (a, b) := scaled num den k
  let below := a / b
  let hit (d : Nat) : Bool := Binary64.ofDecimal false d k == x
  match hit below, hit (below + 1) with
  | true, true => some ⟨if 2 * (a % b) ≤ b then below else below + 1, k⟩
  | true, false => some ⟨below, k⟩
  | false, true => some ⟨below + 1, k⟩
  | false, false => none

/-- Tests finer and finer grids, from the step `10^k` on. -/
def search (x : Binary64) (num den : Nat) : Nat → Int → Decimal
  | 0, k => let (a, b) := scaled num den k; ⟨a / b, k⟩
  | fuel + 1, k =>
    match neighbour? x num den k with
    | some d => strip enough d
    | none => search x num den fuel (k - 1)

/-- The fewest digits that read back as `m · 2^q`. -/
def shortest (m : Nat) (q : Int) : Decimal :=
  if m = 0 then ⟨0, 0⟩
  else
    let (num, den) := Binary64.quotient m q
    search (.finite false m q) num den enough (magnitude num den)

end Decimal

/-- How a decimal number is laid out as text. -/
structure DecimalStyle where
  /-- The places of the point, counted from the first digit, at which no exponent is written. -/
  positional : Int → Bool
  /-- Whether a whole number ends in `.0`. -/
  wholePoint : Bool
  /-- Whether a positive exponent has its sign. -/
  exponentPlus : Bool

namespace DecimalStyle

/-- Plain from five zeros behind the point to sixteen places before it, else an exponent. -/
def yaml : DecimalStyle := ⟨fun p => -5 < p && p ≤ 16, true, false⟩

/-- As `yaml`, with the sign of a positive exponent. -/
def json : DecimalStyle := ⟨fun p => -5 < p && p ≤ 16, true, true⟩

/-- Never an exponent, and no fraction where there is none. -/
def plain : DecimalStyle := ⟨fun _ => true, false, false⟩

def exponentText (style : DecimalStyle) (e : Int) : String :=
  (if e < 0 then "-" else if style.exponentPlus then "+" else "") ++ Nat.repr e.natAbs

/-- The digits with the point after the first `point` of them, or an exponent. -/
def magnitudeText (style : DecimalStyle) (d : Decimal) : String :=
  let ds := Nat.toDigits 10 d.digits
  let zeros (n : Nat) : List Char := List.replicate n '0'
  let point : Int := ds.length + d.exponent
  if style.positional point then
    if point ≤ 0 then String.ofList ('0' :: '.' :: zeros (-point).toNat ++ ds)
    else if (ds.length : Int) ≤ point then
      String.ofList (ds ++ zeros d.exponent.toNat) ++ (if style.wholePoint then ".0" else "")
    else String.ofList (ds.take point.toNat ++ '.' :: ds.drop point.toNat)
  else
    let fraction := ds.drop 1
    String.ofList (ds.take 1 ++ (if fraction.isEmpty then [] else '.' :: fraction))
      ++ "e" ++ style.exponentText (point - 1)

end DecimalStyle

namespace Binary64

/-- The text of a number, with the format's own names for what is not finite. -/
def text (style : DecimalStyle) (infinity notNumber : String) : Binary64 → String
  | .finite s m q => (if s then "-" else "") ++ style.magnitudeText (Decimal.shortest m q)
  | .infinite s => (if s then "-" else "") ++ infinity
  | .nan => notNumber

/-- The text of a number in a YAML document. -/
def yamlText : Binary64 → String := text .yaml ".inf" ".nan"

/-- The text of a number in compact JSON, where what is not finite is null. -/
def jsonText (x : Binary64) : String := if x.isFinite then x.text .json "" "" else "null"

/-- The text of a number in messages. -/
def plainText : Binary64 → String := text .plain "inf" "NaN"

end Binary64

end ServiceMaps
