import ServiceMaps.Yaml.Source

/-!
Plain scalars: text without quotes. It may run over several lines as long as they are
indented, and ends before a colon that a gap follows, before a comment, and in a flow
collection before the collection's own marks.
-/
namespace ServiceMaps.Yaml.Plain

def isFlowMark (c : Char) : Bool := c = ',' || c = '[' || c = ']' || c = '\x7b' || c = '\x7d'

/-- A plain scalar: its text, whether it ended on a later line than its last character, and
the rest. -/
structure Read where
  text : List Char
  broken : Bool
  rest : Source

def Read.after (before : List Char) (r : Read) : Read := { r with text := before ++ r.text }

/-- Reads on from a gap. `indent` is the least column of a further line outside of flow
collections. -/
def scan (flow : Bool) (indent : Nat) : Gap → Source → Option Read
  | gap, [] => some ⟨[], gap.broken, []⟩
  | gap, p :: rest =>
    if isBlank p.char && !(gap.broken && p.column < indent && p.char = '\t')
        || isBreak p.char then
      scan flow indent (gap.extend p.char) rest
    else if isBlank p.char then none
    else if gap ≠ .empty && ((!flow && p.column < indent) || p.char = '#'
        || (p.column = 0 && Source.atDocumentMark (p :: rest))) then
      some ⟨[], gap.broken, p :: rest⟩
    else if flow && p.char = ':' && Source.nextIs (fun c => isFlowMark c || c = '?') rest then none
    else if (p.char = ':' && Source.atGap rest) || (flow && isFlowMark p.char) then
      some ⟨[], gap.broken, p :: rest⟩
    else (scan flow indent .empty rest).map (.after (gap.text ++ [p.char]))

end ServiceMaps.Yaml.Plain
