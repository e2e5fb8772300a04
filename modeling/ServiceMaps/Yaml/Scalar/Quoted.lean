import ServiceMaps.Yaml.Source
import ServiceMaps.Number.Digits

/-!
Quoted scalars. Between single quotes a doubled quote stands for one; between double quotes
a backslash starts an escape. Line breaks are folded in both, and a backslash before a break
takes the break away.
-/
namespace ServiceMaps.Yaml.Quoted

/-- Where reading stands: in the text, behind a backslash, or among the hexadecimal digits of
an escape, `left` of which are still to come. -/
inductive Mode where
  | text
  | escape
  | hex (left value : Nat)
  deriving DecidableEq, Repr

/-- The character that a one-letter escape stands for. -/
def escape? (c : Char) : Option Char :=
  match c with
  | '0' => some '\x00'
  | 'a' => some '\x07'
  | 'b' => some '\x08'
  | 't' => some '\t'
  | '\t' => some '\t'
  | 'n' => some '\n'
  | 'v' => some '\x0b'
  | 'f' => some '\x0c'
  | 'r' => some '\r'
  | 'e' => some '\x1b'
  | ' ' => some ' '
  | '"' => some '"'
  | '/' => some '/'
  | '\\' => some '\\'
  | 'N' => some '\u0085'
  | '_' => some '\u00a0'
  | 'L' => some '\u2028'
  | 'P' => some '\u2029'
  | _ => none

/-- How many hexadecimal digits follow the letter of an escape. -/
def hexLength? (c : Char) : Option Nat :=
  match c with
  | 'x' => some 2
  | 'u' => some 4
  | 'U' => some 8
  | _ => none

def after (before : List Char) (r : List Char × Source) : List Char × Source :=
  (before ++ r.1, r.2)

/-- Reads on to the closing quote. -/
def scan (quote : Char) : Mode → Gap → Source → Option (List Char × Source)
  | _, _, [] => none
  | .text, gap, p :: rest =>
    if isBlank p.char || isBreak p.char then scan quote .text (gap.extend p.char) rest
    else if p.column = 0 && Source.atDocumentMark (p :: rest) then none
    else if p.char = quote then
      match rest with
      | q :: later =>
        if quote = '\'' && q.char = '\'' then
          (scan quote .text .empty later).map (after (gap.text ++ ['\'']))
        else some (gap.text, q :: later)
      | [] => some (gap.text, [])
    else if quote = '"' && p.char = '\\' then
      (scan quote .escape .empty rest).map (after gap.text)
    else (scan quote .text .empty rest).map (after (gap.text ++ [p.char]))
  | .escape, _, p :: rest =>
    if isBreak p.char then scan quote .text (.breaks [] []) rest
    else match escape? p.char, hexLength? p.char with
      | some c, _ => (scan quote .text .empty rest).map (after [c])
      | none, some n => scan quote (.hex n 0) .empty rest
      | none, none => none
  | .hex left value, _, p :: rest =>
    match digitValue? 16 p.char with
    | none => none
    | some d =>
      let value := value * 16 + d
      if left ≤ 1 then
        match scalar? value with
        | some c => (scan quote .text .empty rest).map (after [c])
        | none => none
      else scan quote (.hex (left - 1) value) .empty rest

end ServiceMaps.Yaml.Quoted
