import ServiceMaps.Proofs.Yaml.Tokens

/-!
Every character of a written text is printable, so that the text is readable throughout and every
character stands for itself in its source.
-/
namespace ServiceMaps.Yaml

/-- A text of printable characters only. -/
def Printable (cs : List Char) : Prop := ∀ c ∈ cs, Style.isPrintable c = true

instance (cs : List Char) : Decidable (Printable cs) :=
  decidable_of_iff (cs.all Style.isPrintable = true) List.all_eq_true

@[simp] theorem printable_nil : Printable [] := by simp [Printable]

@[simp] theorem printable_cons {c : Char} {cs : List Char} :
    Printable (c :: cs) ↔ Style.isPrintable c = true ∧ Printable cs := by
  simp [Printable]

@[simp] theorem printable_append {cs more : List Char} :
    Printable (cs ++ more) ↔ Printable cs ∧ Printable more := by
  simp [Printable, or_imp, forall_and]

theorem isReadable_of_isPrintable {c : Char} (h : Style.isPrintable c = true) :
    isReadable c = true := by
  simp only [Style.isPrintable, Bool.or_eq_true, Bool.and_eq_true] at h
  simp only [isReadable, Bool.or_eq_true, Bool.and_eq_true]
  tauto

/-- A printable text is its own source. -/
theorem ofText?_printable {cs : List Char} (h : Printable cs) :
    Source.ofText? (String.ofList cs) = some (spread 0 0 cs) := by
  have hall : cs.all isReadable = true := List.all_eq_true.mpr fun c hc =>
    isReadable_of_isPrintable (h c hc)
  rw [Source.ofText?, String.toList_ofList, if_pos hall, place_eq_spread fun c hc => ?_]
  exact ⟨(isPrintable_ne (h c hc)).2.1, (isPrintable_ne (h c hc)).2.2.1⟩

namespace Style

theorem printable_spaces (n : Nat) : Printable (spaces n) := by
  intro c hc
  rw [List.eq_of_mem_replicate hc]
  decide

theorem printable_hexDigits (width n : Nat) : Printable (hexDigits upperHex width n) := by
  intro c hc
  obtain ⟨i, -, rfl⟩ := List.mem_map.mp hc
  have hall : ∀ d : Fin 16, isPrintable (upperHex d) = true := by decide
  exact hall ⟨n / 16 ^ i % 16, Nat.mod_lt _ (by decide)⟩

theorem printable_escaped (c : Char) : Printable (escaped c) := by
  have hslash : isPrintable '\\' = true := by decide
  unfold escaped
  split
  · rename_i h
    simp only [Bool.and_eq_true] at h
    simp [h]
  · split
    · rename_i letter hletter
      have hprint : isPrintable letter = true := by
        unfold escapeLetter? at hletter
        split at hletter <;> first
          | (obtain rfl := Option.some.inj hletter; decide)
          | simp at hletter
      simp [hslash, hprint]
    · split
      · simp [hslash, printable_hexDigits]
        decide
      · split
        · simp [hslash, printable_hexDigits]
          decide
        · simp [hslash, printable_hexDigits]
          decide

theorem printable_doubleQuoted (cs : List Char) : Printable (doubleQuoted cs) := by
  have hquote : isPrintable '"' = true := by decide
  have hbody : Printable (cs.flatMap escaped) := by
    intro c hc
    obtain ⟨d, -, hd⟩ := List.mem_flatMap.mp hc
    exact printable_escaped d c hd
  simp [doubleQuoted, hquote, hbody]

theorem printable_singleBody (indent : Nat) {cs : List Char} (h : Printable cs) (broken : Bool) :
    Printable (singleBody indent broken cs) := by
  have hquote : isPrintable '\'' = true := by decide
  induction cs generalizing broken with
  | nil => cases broken <;> simp [singleBody, printable_spaces]
  | cons c rest ih =>
    obtain ⟨hc, hrest⟩ := printable_cons.mp h
    rw [singleBody]
    split
    · simp [hc, ih hrest]
    · simp only [printable_append]
      refine ⟨⟨?_, ?_⟩, ih hrest _⟩
      · split
        · exact printable_spaces indent
        · exact printable_nil
      · split <;> simp [hc, hquote]

theorem printable_singleQuoted (indent : Nat) {cs : List Char} (h : Printable cs) :
    Printable (singleQuoted indent cs) := by
  have hquote : isPrintable '\'' = true := by decide
  simp [singleQuoted, hquote, printable_singleBody indent h]

theorem printable_literalBody (indent : Nat) {cs : List Char} (h : Printable cs) (broken : Bool) :
    Printable (literalBody indent broken cs) := by
  induction cs generalizing broken with
  | nil => exact printable_nil
  | cons c rest ih =>
    obtain ⟨hc, hrest⟩ := printable_cons.mp h
    rw [literalBody]
    split
    · simp [hc, ih hrest]
    · rw [printable_append]
      refine ⟨?_, by simp [hc, ih hrest]⟩
      split
      · exact printable_spaces indent
      · exact printable_nil

theorem printable_literalHeader (cs : List Char) : Printable (literalHeader cs) := by
  have hall : ∀ hint ∈ [['2'], []], ∀ mark ∈ [['-'], ['+'], []],
      Printable ('|' :: hint ++ mark) := by decide
  refine hall _ ?_ _ ?_
  · split <;> simp
  · split
    · simp
    · split <;> simp
    · split
      · simp
      · split <;> simp

theorem printable_endLine {cs : List Char} (h : Printable cs) : Printable (endLine cs) := by
  unfold endLine
  split
  · exact h
  · exact printable_append.mpr ⟨h, by decide⟩

theorem printable_write (indent : Nat) (s : String) : Printable (write indent s) := by
  have hline : isPrintable '\n' = true := by decide
  unfold write
  cases hstyle : ofText s with
  | plain =>
    have htext : Printable s.toList := (of_ofText_plain hstyle).1.printable
    simp [htext, hline]
  | single =>
    have htext : Printable s.toList := (of_ofText_single hstyle).1.printable
    simp [printable_singleQuoted indent htext, hline]
  | double => simp [printable_doubleQuoted, hline]
  | literal =>
    have htext : Printable s.toList := (of_ofText_literal hstyle).1.printable
    refine printable_endLine ?_
    simp [printable_literalHeader, printable_literalBody indent htext, hline]

theorem printable_writeKey (s : String) : Printable (writeKey s) := by
  unfold writeKey
  cases hstyle : ofText s with
  | plain => exact (of_ofText_plain hstyle).1.printable
  | single => exact printable_singleQuoted 0 (of_ofText_single hstyle).1.printable
  | double | literal => exact printable_doubleQuoted s.toList

end Style

namespace Writing

open Layout (isInline afterDash_inline)

variable {r : String → String → Prop}

theorem printable_margin (indent : Nat) (onOwnLine : Bool) :
    Printable (margin indent onOwnLine) := by
  unfold margin
  split
  · exact Style.printable_spaces indent
  · exact printable_nil

theorem printable_int (n : Int) : Printable (toString n).toList := (fitsPlain_int n).printable

theorem printable_float {x : Binary64} (hf : x.isFinite = true) : Printable x.yamlText.toList :=
  (fitsPlain_float hf).printable

/-- A value stands on the line of its dash or name behind a blank. -/
theorem printable_blank {cs : List Char} (h : Printable cs) : Printable (' ' :: cs) :=
  printable_cons.mpr ⟨by decide, h⟩

theorem printable_line {cs : List Char} (h : Printable cs) : Printable (' ' :: cs ++ ['\n']) :=
  printable_append.mpr ⟨printable_blank h, by decide⟩

theorem printable_inline {v : Value} (h : isInline v = true) (hv : v.Sound r) (indent : Nat) :
    Printable (afterName indent v) := by
  cases hv with
  | null => exact (by decide : Printable [' ', 'n', 'u', 'l', 'l', '\n'])
  | bool b =>
    have hall : ∀ b : Bool, Printable (if b then " true\n" else " false\n").toList := by decide
    exact hall b
  | int => exact printable_line (printable_int _)
  | float hf _ => exact printable_line (printable_float hf)
  | str s => exact printable_blank (Style.printable_write (indent + 2) s)
  | @arr items _ =>
    obtain rfl : items = [] := List.isEmpty_iff.mp h
    exact (by decide : Printable [' ', '[', ']', '\n'])
  | @obj fields _ _ =>
    obtain rfl : fields = [] := List.isEmpty_iff.mp h
    exact (by decide : Printable [' ', '\x7b', '\x7d', '\n'])

mutual

theorem printable_afterDash : ∀ {v : Value}, v.Sound r → ∀ indent, Printable (afterDash indent v)
  | .arr items, .arr h, indent => by
    cases hi : items.isEmpty with
    | true =>
      rw [afterDash_inline (v := .arr items) hi]
      exact printable_inline (v := .arr items) hi (.arr h) indent
    | false =>
      simpa [afterDash, hi] using printable_blank (printable_itemsFrom h (indent + 2) false)
  | .obj fields, .obj hn h, indent => by
    cases hi : fields.isEmpty with
    | true =>
      rw [afterDash_inline (v := .obj fields) hi]
      exact printable_inline (v := .obj fields) hi (.obj hn h) indent
    | false =>
      simpa [afterDash, hi] using printable_blank (printable_fieldsFrom h (indent + 2) false)
  | .null, h, indent | .bool _, h, indent | .int _, h, indent | .float _, h, indent
  | .str _, h, indent => printable_inline rfl h indent

theorem printable_itemsFrom : ∀ {items : List Value}, (∀ v ∈ items, v.Sound r) →
    ∀ indent onOwnLine, Printable (itemsFrom indent onOwnLine items)
  | [], _, _, _ => printable_nil
  | v :: rest, h, indent, onOwnLine => by
    obtain ⟨hv, hrest⟩ := List.forall_mem_cons.mp h
    have hdash : Style.isPrintable '-' = true := by decide
    simp [itemsFrom, printable_margin, hdash, printable_afterDash hv, printable_itemsFrom hrest]

theorem printable_fieldsFrom : ∀ {fields : List (String × Value)},
    (∀ field ∈ fields, field.2.Sound r) →
    ∀ indent onOwnLine, Printable (fieldsFrom indent onOwnLine fields)
  | [], _, _, _ => printable_nil
  | (name, v) :: rest, h, indent, onOwnLine => by
    obtain ⟨hv, hrest⟩ := List.forall_mem_cons.mp h
    have hcolon : Style.isPrintable ':' = true := by decide
    have hquery : Style.isPrintable '?' = true := by decide
    have hspace : Style.isPrintable ' ' = true := by decide
    rw [fieldsFrom]
    split
    · simp [printable_margin, Style.printable_writeKey, hcolon, printable_afterName hv,
        printable_fieldsFrom hrest]
    · simp [printable_margin, Style.printable_write, Style.printable_spaces, hcolon, hquery, hspace,
        printable_afterDash hv, printable_fieldsFrom hrest]

theorem printable_afterName : ∀ {v : Value}, v.Sound r → ∀ indent, Printable (afterName indent v)
  | .arr items, .arr h, indent => by
    cases hi : items.isEmpty with
    | true => exact printable_inline (v := .arr items) hi (.arr h) indent
    | false =>
      have hline : Style.isPrintable '\n' = true := by decide
      simp [afterName, hi, hline, printable_itemsFrom h]
  | .obj fields, .obj hn h, indent => by
    cases hi : fields.isEmpty with
    | true => exact printable_inline (v := .obj fields) hi (.obj hn h) indent
    | false =>
      have hline : Style.isPrintable '\n' = true := by decide
      simp [afterName, hi, hline, printable_fieldsFrom h]
  | .null, h, indent | .bool _, h, indent | .int _, h, indent | .float _, h, indent
  | .str _, h, indent => printable_inline rfl h indent

end

end Writing

end ServiceMaps.Yaml
