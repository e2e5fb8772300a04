import ServiceMaps.Proofs.Yaml.Documents

/-!
How a written value ends. Everything but a block scalar ends with a line feed, and a block scalar
ends with the last break of its text, which may be a line or paragraph separator. A line feed behind
such a break is one more break of the text if the text keeps all its breaks, and so the text comes
back longer exactly if it is `endsOpen`.
-/
namespace ServiceMaps.Yaml

namespace Style

/-- Whether the written text ends with a break that is no line feed. -/
def isUnended (s : String) : Bool :=
  ofText s = .literal && s.toList.getLast?.any fun c => isBreak c && c ≠ '\n'

theorem getLast?_write (indent : Nat) (s : String) :
    (write indent s).getLast? = some '\n' ↔ isUnended s = false := by
  unfold write isUnended
  cases hstyle : ofText s with
  | plain | single | double => simp
  | literal =>
    obtain ⟨-, hn, -⟩ := of_ofText_literal hstyle
    have hlast := Block.getLast?_literal indent hn
    simp only [endLine, hlast]
    cases hc : s.toList.getLast? with
    | none => exact absurd (List.getLast?_eq_none_iff.mp hc) hn
    | some c =>
      rw [hc] at hlast
      cases hb : isBreak c with
      | true => simp [hb, hlast]
      | false => simp [hb, List.getLast?_cons]

/-- Whether a text takes in a line feed behind it: it is written as a block scalar, it ends in two
breaks, and the last of them is no line feed. -/
def endsOpen (s : String) : Bool :=
  ofText s = .literal && match s.toList.reverse with
    | c :: d :: _ => isBreak c && isBreak d && c ≠ '\n'
    | _ => false

theorem endsOpen_iff (s : String) :
    endsOpen s = true ↔ isUnended s = true ∧ Layout.reread ['\n'] s ≠ s := by
  unfold endsOpen isUnended Layout.reread
  cases hstyle : ofText s with
  | plain | single | double => simp
  | literal =>
    obtain ⟨-, hn, hline⟩ := of_ofText_literal hstyle
    have hlonger : String.ofList (s.toList ++ ['\n']) ≠ s := fun h => by
      simpa using congrArg (fun t : String => t.toList.length) h
    have hreread : String.ofList (Block.held ['\n'] s.toList) = s ↔
        Block.closing s.toList ≠ .keep := by
      unfold Block.held
      split
      · rename_i hk
        exact ⟨fun h => absurd h hlonger, fun h => absurd hk h⟩
      · rename_i hk
        simp [hk]
    simp only [decide_true, Bool.true_and, if_true, Ne, hreread, Decidable.not_not]
    rw [← List.head?_reverse, Block.closing]
    rcases hrev : s.toList.reverse with _ | ⟨c, _ | ⟨d, rest⟩⟩
    · simp
    · have hc : '\n' ∈ [c] := hrev ▸ List.mem_reverse.mpr hline
      obtain rfl : '\n' = c := by simpa using hc
      simp
    · cases hc : isBreak c <;> cases hd : isBreak d <;> simp [hc, hd]

end Style

namespace Writing

/-- A value that is written to the end of a line. -/
def EndsLine (cs : List Char) (last : Option String) : Prop :=
  cs.getLast? = some '\n' ↔ last.any Style.isUnended = false

theorem endsLine_append (cs : List Char) {more : List Char} {last : Option String}
    (hn : more ≠ []) (h : EndsLine more last) : EndsLine (cs ++ more) last := by
  rw [EndsLine, List.getLast?_append_of_ne_nil _ hn]
  exact h

open Layout (isInline afterDash_inline afterDash_cons)

theorem endsLine_word (cs : List Char) : EndsLine (cs ++ ['\n']) none := by
  simp [EndsLine]

theorem write_ne_nil (indent : Nat) (s : String) : Style.write indent s ≠ [] := by
  unfold Style.write
  split
  · simp
  · simp
  · simp
  · unfold Style.endLine
    split <;> simp

theorem endsLine_inline {v : Value} (h : isInline v = true) (indent : Nat) :
    EndsLine (afterName indent v) (lastText? v) := by
  cases v with
  | null => exact endsLine_word [' ', 'n', 'u', 'l', 'l']
  | bool b =>
    cases b with
    | true => exact endsLine_word [' ', 't', 'r', 'u', 'e']
    | false => exact endsLine_word [' ', 'f', 'a', 'l', 's', 'e']
  | int n => exact endsLine_word _
  | float x => exact endsLine_word _
  | str s => exact endsLine_append [' '] (write_ne_nil _ s) (Style.getLast?_write _ s)
  | arr items =>
    obtain rfl : items = [] := List.isEmpty_iff.mp h
    exact endsLine_word [' ', '[', ']']
  | obj fields =>
    obtain rfl : fields = [] := List.isEmpty_iff.mp h
    exact endsLine_word [' ', '\x7b', '\x7d']

theorem itemsFrom_ne_nil (indent : Nat) (onOwnLine : Bool) {items : List Value} (h : items ≠ []) :
    itemsFrom indent onOwnLine items ≠ [] := by
  obtain ⟨v, rest, rfl⟩ := List.exists_cons_of_ne_nil h
  simp [itemsFrom]

theorem fieldsFrom_ne_nil (indent : Nat) (onOwnLine : Bool) {fields : List (String × Value)}
    (h : fields ≠ []) : fieldsFrom indent onOwnLine fields ≠ [] := by
  obtain ⟨⟨name, v⟩, rest, rfl⟩ := List.exists_cons_of_ne_nil h
  rw [fieldsFrom]
  split <;> simp

theorem afterDash_ne_nil (indent : Nat) (v : Value) : afterDash indent v ≠ [] := by
  obtain ⟨more, h⟩ := afterDash_cons indent v
  simp [h]

theorem afterName_ne_nil (indent : Nat) (v : Value) : afterName indent v ≠ [] := by
  cases hi : isInline v with
  | true =>
    rw [← afterDash_inline hi]
    exact afterDash_ne_nil indent v
  | false =>
    cases v with
    | arr items =>
      have hn : items.isEmpty = false := hi
      simp [afterName, hn]
    | obj fields =>
      have hn : fields.isEmpty = false := hi
      simp [afterName, hn]
    | _ => simp [isInline] at hi

mutual

theorem endsLine_afterDash : ∀ (v : Value) (indent : Nat),
    EndsLine (afterDash indent v) (lastText? v)
  | .arr [], indent | .obj [], indent | .null, indent | .bool _, indent | .int _, indent
  | .float _, indent | .str _, indent => by
    rw [afterDash_inline rfl]
    exact endsLine_inline rfl indent
  | .arr (v :: rest), indent => by
    have hn : v :: rest ≠ [] := by simp
    have h := endsLine_itemsFrom hn (indent + 2) false
    simpa [afterDash, lastText?] using endsLine_append [' ']
      (itemsFrom_ne_nil (indent + 2) false hn) h
  | .obj (field :: rest), indent => by
    have hn : field :: rest ≠ [] := by simp
    have h := endsLine_fieldsFrom hn (indent + 2) false
    simpa [afterDash, lastText?] using endsLine_append [' ']
      (fieldsFrom_ne_nil (indent + 2) false hn) h

theorem endsLine_itemsFrom : ∀ {items : List Value}, items ≠ [] → ∀ indent onOwnLine,
    EndsLine (itemsFrom indent onOwnLine items) (lastItemText? items)
  | [v], _, indent, onOwnLine => by
    have h := endsLine_append (margin indent onOwnLine ++ ['-']) (afterDash_ne_nil indent v)
      (endsLine_afterDash v indent)
    simpa [itemsFrom, lastItemText?] using h
  | v :: w :: rest, _, indent, onOwnLine => by
    have hn : w :: rest ≠ [] := by simp
    rw [itemsFrom]
    exact endsLine_append _ (itemsFrom_ne_nil indent true hn) (endsLine_itemsFrom hn indent true)

theorem endsLine_fieldsFrom : ∀ {fields : List (String × Value)}, fields ≠ [] →
    ∀ indent onOwnLine, EndsLine (fieldsFrom indent onOwnLine fields) (lastFieldText? fields)
  | [(name, v)], _, indent, onOwnLine => by
    have hname := fun cs => endsLine_append (cs ++ [':']) (afterName_ne_nil indent v)
      (endsLine_afterName v indent)
    have hdash := fun cs => endsLine_append (cs ++ [':']) (afterDash_ne_nil indent v)
      (endsLine_afterDash v indent)
    rw [fieldsFrom, fieldsFrom, List.append_nil]
    split
    · simpa [lastFieldText?] using hname (margin indent onOwnLine ++ Style.writeKey name)
    · simpa [lastFieldText?] using hdash (margin indent onOwnLine ++
        ('?' :: ' ' :: Style.write (indent + 2) name ++ Style.spaces indent))
  | (name, v) :: field :: rest, _, indent, onOwnLine => by
    have hn : field :: rest ≠ [] := by simp
    rw [fieldsFrom]
    exact endsLine_append _ (fieldsFrom_ne_nil indent true hn) (endsLine_fieldsFrom hn indent true)

theorem endsLine_afterName : ∀ (v : Value) (indent : Nat),
    EndsLine (afterName indent v) (lastText? v)
  | .arr [], indent | .obj [], indent | .null, indent | .bool _, indent | .int _, indent
  | .float _, indent | .str _, indent => endsLine_inline rfl indent
  | .arr (v :: rest), indent => by
    have hn : v :: rest ≠ [] := by simp
    have h := endsLine_itemsFrom hn indent true
    simpa [afterName, lastText?] using endsLine_append ['\n'] (itemsFrom_ne_nil indent true hn) h
  | .obj (field :: rest), indent => by
    have hn : field :: rest ≠ [] := by simp
    have h := endsLine_fieldsFrom hn (indent + 2) true
    simpa [afterName, lastText?] using endsLine_append ['\n']
      (fieldsFrom_ne_nil (indent + 2) true hn) h

end

/-- Whether a value takes in the line feed that stands behind it. -/
def endsOpen (fields : List (String × Value)) : Bool := (lastFieldText? fields).any Style.endsOpen

/-- Fields are read as they were written if their last text does not take in a line feed. -/
theorem readBack_eq {fields : List (String × Value)} (hn : fields ≠ [])
    (h : endsOpen fields = false) :
    readBack fields = .obj fields := by
  rw [readBack, paddedFields_eq fun s hs => ?_]
  have hclosed : Style.endsOpen s = false := by
    obtain hs : lastFieldText? fields = some s := hs
    simpa [endsOpen, hs] using h
  unfold lineFeed
  split
  · exact Layout.reread_nil s
  · rename_i hlast
    have hunended : (lastFieldText? fields).any Style.isUnended = true := by
      have hends : EndsLine (documentText fields) (lastFieldText? fields) :=
        endsLine_fieldsFrom hn 0 false
      simpa using mt hends.mpr hlast
    obtain hs : lastFieldText? fields = some s := hs
    by_contra hne
    have hopen := (Style.endsOpen_iff s).mpr ⟨by simpa [hs] using hunended, hne⟩
    simp [hopen] at hclosed

/-- A text that takes in a line feed is followed by one, and is read as a longer one. -/
theorem lineFeed_of_endsOpen {fields : List (String × Value)} (hn : fields ≠ [])
    (h : endsOpen fields = true) : lineFeed fields = ['\n'] ∧
      ∃ s, lastFieldText? fields = some s ∧ Layout.reread ['\n'] s ≠ s := by
  obtain ⟨s, hs, hopen⟩ := (Option.any_eq_true _ _).mp h
  obtain ⟨hunended, hreread⟩ := (Style.endsOpen_iff s).mp hopen
  have hends : EndsLine (documentText fields) (lastFieldText? fields) :=
    endsLine_fieldsFrom hn 0 false
  have hlast : (documentText fields).getLast? ≠ some '\n' := by
    refine mt hends.mp ?_
    simp [hs, hunended]
  exact ⟨if_neg hlast, s, hs, hreread⟩

end Writing

end ServiceMaps.Yaml
