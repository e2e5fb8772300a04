import ServiceMaps.Number.Literal

/-!
Numbers and dates of TOML. A date is kept as its text in normal form: a capital `T` between
day and time, a capital `Z`, at most nine digits of a second and no zeros at their end.
-/
namespace ServiceMaps.Toml

/-- Exactly `n` digits as a number. -/
def digits? (n : Nat) (cs : List Char) : Option (Nat × List Char) :=
  let ds := cs.take n
  if ds.length = n && ds.all isDecimalDigit then (whole? 10 ds).map (·, cs.drop n) else none

/-- A number of two digits within bounds. -/
def pair? (least greatest : Nat) (cs : List Char) : Option (Nat × List Char) :=
  (digits? 2 cs).filter fun (n, _) => least ≤ n && n ≤ greatest

def char? (c : Char) : List Char → Option (List Char)
  | d :: rest => if c = d then some rest else none
  | [] => none

def isLeap (year : Nat) : Bool := year % 4 = 0 && (year % 100 ≠ 0 || year % 400 = 0)

def daysIn (year month : Nat) : Nat :=
  if month = 2 then (if isLeap year then 29 else 28)
  else if month = 4 || month = 6 || month = 9 || month = 11 then 30
  else 31

def day? (cs : List Char) : Option (List Char × List Char) := do
  let (year, rest) ← digits? 4 cs
  let rest ← char? '-' rest
  let (month, rest) ← pair? 1 12 rest
  let rest ← char? '-' rest
  let (_, rest) ← pair? 1 (daysIn year month) rest
  return (cs.take 10, rest)

/-- The digits behind a second's point, without needless ones. -/
def fraction (digits : List Char) : List Char :=
  let kept := ((digits.take 9).reverse.dropWhile (· = '0')).reverse
  if kept.isEmpty then [] else '.' :: kept

def time? (cs : List Char) : Option (List Char × List Char) := do
  let (_, rest) ← pair? 0 23 cs
  let rest ← char? ':' rest
  let (_, rest) ← pair? 0 59 rest
  let rest ← char? ':' rest
  let (_, rest) ← pair? 0 60 rest
  let clock := cs.take 8
  match rest with
  | '.' :: tail =>
    let digits := tail.takeWhile isDecimalDigit
    if digits.isEmpty then return (clock, rest)
    else return (clock ++ fraction digits, tail.dropWhile isDecimalDigit)
  | _ => return (clock, rest)

/-- The offset from universal time; none is there if nothing fits. A zero offset is positive. -/
def offset (cs : List Char) : List Char × List Char :=
  match cs with
  | 'Z' :: rest => (['Z'], rest)
  | 'z' :: rest => (['Z'], rest)
  | sign :: rest =>
    let read : Option (List Char × List Char) := do
      if sign ≠ '+' && sign ≠ '-' then none
      else
        let (hours, later) ← pair? 0 23 rest
        let later ← char? ':' later
        let (minutes, later) ← pair? 0 59 later
        let sign := if hours = 0 && minutes = 0 then '+' else sign
        return (sign :: rest.take 5, later)
    read.getD ([], cs)
  | [] => ([], [])

/-- A day, perhaps with a time and an offset, or a time alone. -/
def date? (cs : List Char) : Option (List Char × List Char) :=
  match day? cs with
  | some (day, rest) =>
    let clock : Option (List Char × List Char) := do
      match rest with
      | c :: rest =>
        if c = 'T' || c = 't' || c = ' ' then time? rest else none
      | [] => none
    match clock with
    | some (clock, rest) =>
      let (offset, rest) := offset rest
      some (day ++ 'T' :: clock ++ offset, rest)
    | none => some (day, rest)
  | none => time? cs

/-- Digits with single underscores between them. -/
def grouped? (isDigit : Char → Bool) : List Char → Option (List Char × List Char)
  | c :: '_' :: rest =>
    if isDigit c then (grouped? isDigit rest).map fun (ds, rest) => (c :: ds, rest) else none
  | c :: rest =>
    if isDigit c then
      match grouped? isDigit rest with
      | some (ds, rest) => some (c :: ds, rest)
      | none => some ([c], rest)
    else none
  | [] => none

def fitsWord (n : Int) : Bool := -(2 ^ 63 : Int) ≤ n && n < (2 ^ 63 : Int)

def wholeWord? (negative : Bool) (base : Nat) (digits : List Char) : Option Number :=
  let n := (ServiceMaps.whole? base digits).map fun n : Nat => if negative then -(n : Int) else n
  (n.filter fitsWord).map .whole

/-- A whole number behind the mark of its base. -/
def based? (base : Nat) (cs : List Char) : Option (Number × List Char) := do
  let (digits, rest) ← grouped? (fun c => (digitValue? base c).isSome) cs
  return (← wholeWord? false base digits, rest)

/-- An exponent behind its letter. -/
def exponent? (cs : List Char) : Option (Int × List Char) := do
  let (negative, cs) := match cs with
    | '+' :: rest => (false, rest)
    | '-' :: rest => (true, rest)
    | cs => (false, cs)
  let (digits, rest) ← grouped? isDecimalDigit cs
  let n ← ServiceMaps.whole? 10 digits
  return (if negative then -(n : Int) else n, rest)

/-- The floating number of a numeral; one that is too great is refused. -/
def floating? (l : Literal) : Option Number :=
  if l.value = .infinite false then none else some (.floating l.value)

/-- A decimal number behind its sign. A zero in front stands alone before the point. -/
def decimal? (negative : Bool) (cs : List Char) : Option (Number × List Char) := do
  let (whole, rest) ← match cs with
    | '0' :: rest => some (['0'], rest)
    | cs => grouped? isDecimalDigit cs
  let (part, rest, pointed) ← match rest with
    | '.' :: tail => (grouped? isDecimalDigit tail).map fun (ds, rest) => (ds, rest, true)
    | rest => some ([], rest, false)
  let digits ← ServiceMaps.whole? 10 (whole ++ part)
  match rest with
  | c :: tail =>
    if c = 'e' || c = 'E' then
      let (e, rest) ← exponent? tail
      return (← floating? ⟨negative, digits, e - part.length⟩, rest)
    else if pointed then return (← floating? ⟨negative, digits, -part.length⟩, c :: tail)
    else return (← wholeWord? negative 10 whole, c :: tail)
  | [] =>
    if pointed then return (← floating? ⟨negative, digits, -part.length⟩, [])
    else return (← wholeWord? negative 10 whole, [])

def special? (negative : Bool) (cs : List Char) : Option (Number × List Char) :=
  match cs with
  | 'i' :: 'n' :: 'f' :: rest => some (.floating (.infinite negative), rest)
  | 'n' :: 'a' :: 'n' :: rest => some (.floating .nan, rest)
  | _ => none

/-- Reads a number. Only a number without sign may have the mark of another base. -/
def number? : List Char → Option (Number × List Char)
  | '0' :: 'x' :: cs => based? 16 cs
  | '0' :: 'o' :: cs => based? 8 cs
  | '0' :: 'b' :: cs => based? 2 cs
  | '+' :: cs => (special? false cs).orElse fun _ => decimal? false cs
  | '-' :: cs => (special? true cs).orElse fun _ => decimal? true cs
  | cs => (special? false cs).orElse fun _ => decimal? false cs

end ServiceMaps.Toml
