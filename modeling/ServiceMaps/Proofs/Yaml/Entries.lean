import ServiceMaps.Proofs.Yaml.Steps

/-!
The tokens of entries: the dash of an item, the name and the colon of a field, the marks of a long
name, empty collections, and the mark between two documents. The first entry of a collection opens
it, which puts a token in front of those that were read of the entry; `Enters` says both cases at
once.
-/
namespace ServiceMaps.Yaml.Layout

variable {emitted : List Token} {columns : List Nat} {allowed : Bool} {line column : Nat}

/-- An entry at a column opens a block collection there, unless one is open: the tokens and the
columns around it before the entry, and then the same behind the collection's start. -/
inductive Enters (opening : Token) (column : Nat) :
    List Token → List Nat → List Token → List Nat → Prop where
  | opens {emitted : List Token} {columns : List Nat} : (∀ c ∈ columns.head?, c < column) →
      Enters opening column emitted columns (opening :: emitted) columns
  | inside {emitted : List Token} {columns : List Nat} :
      Enters opening column emitted (column :: columns) emitted columns

variable {opening : Token} {emitted' : List Token} {columns' : List Nat}

theorem Enters.reaches (h : Enters opening column emitted columns emitted' columns') :
    Reaches columns column := by
  cases h with
  | opens h => exact fun c hc => Nat.le_of_lt (h c hc)
  | inside => exact reaches_cons.mpr (Nat.le_refl _)

/-- The collection starts in front of the last tokens, which belong to its first entry. -/
theorem Enters.roll (h : Enters opening column emitted columns emitted' columns')
    (last : List Token) (key : Option PossibleKey) (allowed : Bool) :
    roll column emitted.length opening ⟨last ++ emitted, columns, key, [], allowed⟩ =
      ⟨last ++ emitted', column :: columns', key, [], allowed⟩ := by
  have hinsert : (last ++ emitted).insertIdx last.length opening = last ++ opening :: emitted := by
    induction last with
    | nil => simp
    | cons t rest ih => simpa using ih
  cases h with
  | opens h =>
    have hlt : indent ⟨last ++ emitted, columns, key, [], allowed⟩ < (column : Int) := by
      cases columns with
      | nil =>
        change (-1 : Int) < column
        omega
      | cons c rest => exact Int.ofNat_lt.mpr (h c rfl)
    simp [Layout.roll, inFlow, hlt, insert, hinsert]
  | inside =>
    simp [Layout.roll, inFlow, indent]

theorem atMarker_gap (p : Placed) {c : Char} {rest : Source}
    (hc : isBreak c = false ∧ isBlank c = false)
    (h : rest.atGap = true) : Source.atMarker c (p :: rest) = false := by
  rcases rest with _ | ⟨q, _ | ⟨r, more⟩⟩
  · rfl
  · rfl
  · have hne : q.char ≠ c := by
      rintro rfl
      simp [Source.atGap, hc] at h
    simp [Source.atMarker, hne]

theorem step_dash {l : Layout} {rest : Source} (h : rest.atGap = true) :
    l.step ⟨'-', line, column⟩ rest =
      ( l.blockEntry? ⟨'-', line, column⟩).bind fun l => some (l, rest) := by
  have hdash := atMarker_gap ⟨'-', line, column⟩ (c := '-') (by decide) h
  simp [step, atMarker_of_ne, hdash, h]

theorem step_query {l : Layout} {rest : Source} (h : rest.atGap = true) :
    l.step ⟨'?', line, column⟩ rest =
      (l.explicitKey? ⟨'?', line, column⟩).bind fun l => some (l, rest) := by
  simp [step, atMarker_of_ne, h]

theorem step_colon {l : Layout} {rest : Source} (h : rest.atGap = true) :
    l.step ⟨':', line, column⟩ rest =
      (l.value? ⟨':', line, column⟩).bind fun l => some (l, rest) := by
  simp [step, atMarker_of_ne, h]

variable {rest : List Char}

/-- A dash starts an item. -/
theorem leads_dash (h : Enters .blockSequence column emitted columns emitted' columns')
    (hr : Source.atGap (spread line (column + 1) rest) = true) :
    Leads ⟨emitted, columns, none, [], true⟩ (spread line column ('-' :: rest))
      ⟨.blockEntry :: emitted', column :: columns', none, [], true⟩
      (spread line (column + 1) rest) := by
  have hstart : StartsToken '-' := by decide
  have hroll := h.roll [] none true
  rw [spread_text hstart.1]
  refine leads_step hstart (expire?_none _) ?_ (Nat.le_refl _)
  rw [unroll_reaches h.reaches, step_dash hr]
  simp only [List.nil_append] at hroll
  simp [ blockEntry?, rollHere?, inFlow, hroll, dropKey?, allowKey, emit]

/-- A question mark starts a long name. -/
theorem leads_query (h : Enters .blockMapping column emitted columns emitted' columns')
    (hr : Source.atGap (spread line (column + 1) rest) = true) :
    Leads ⟨emitted, columns, none, [], true⟩ (spread line column ('?' :: rest))
      ⟨.key :: emitted', column :: columns', none, [], true⟩
      (spread line (column + 1) rest) := by
  have hstart : StartsToken '?' := by decide
  have hroll := h.roll [] none true
  rw [spread_text hstart.1]
  refine leads_step hstart (expire?_none _) ?_ (Nat.le_refl _)
  rw [unroll_reaches h.reaches, step_query hr]
  simp only [List.nil_append] at hroll
  simp [explicitKey?, rollHere?, inFlow, hroll, dropKey?, allowKey, emit]

/-- A colon starts the value of a long name. -/
theorem leads_value (hr : Source.atGap (spread line (column + 1) rest) = true) :
    Leads ⟨emitted, column :: columns, none, [], true⟩ (spread line column (':' :: rest))
      ⟨.value :: emitted, column :: columns, none, [], true⟩
      (spread line (column + 1) rest) := by
  have hstart : StartsToken ':' := by decide
  rw [spread_text hstart.1]
  refine leads_step hstart (expire?_none _) ?_ (Nat.le_refl _)
  rw [unroll_reaches (reaches_cons.mpr (Nat.le_refl _)), step_colon hr]
  simp [value?, rollHere?, roll, inFlow, indent, allowKey, emit]

/-- A colon makes the scalar before it a name. -/
theorem leads_colon {start : Nat} {t : Token} {c : Char}
    (h : Enters .blockMapping start emitted columns emitted' columns') (hl : start ≤ column)
    (hu : column ≤ start + 1024) (hr : Source.atGap (spread line (column + 1) rest) = true) :
    Leads ⟨t :: emitted, columns, noted emitted columns true ⟨c, line, start⟩, [], false⟩
        (spread line column (':' :: rest))
      ⟨.value :: t :: .key :: emitted', start :: columns', none, [], false⟩
      (spread line (column + 1) rest) := by
  have hstart : StartsToken ':' := by decide
  have hreach : Reaches columns column := fun c hc => Nat.le_trans (h.reaches c hc) hl
  have hlate : ¬ start + 1024 < column := by omega
  have hkeep : expire? ⟨':', line, column⟩
        ⟨t :: emitted, columns, noted emitted columns true ⟨c, line, start⟩, [], false⟩ =
      some ⟨t :: emitted, columns, noted emitted columns true ⟨c, line, start⟩, [], false⟩ := by
    simp [expire?, noted, PossibleKey.expired, hlate]
  rw [spread_text hstart.1]
  refine leads_step hstart hkeep ?_ (Nat.le_refl _)
  rw [unroll_reaches hreach, step_colon hr]
  have hroll := h.roll [t, .key] (noted emitted columns true ⟨c, line, start⟩) false
  simp [value?, noted, insert] at hroll ⊢
  simp [hroll, allowKey, emit]

/-- A quoted scalar before a colon. -/
theorem leads_quoted_name {quote : Char} {cs body : List Char} (hq : quote = '\'' ∨ quote = '"')
    (hreach : Reaches columns column)
    (hscan : Quoted.scan quote .text .empty
      (spread line (column + 1) (body ++ quote :: ':' :: rest)) =
      some (cs, spread line (column + 1 + body.length + 1) (':' :: rest))) :
    Leads ⟨emitted, columns, none, [], allowed⟩
        (spread line column (quote :: body ++ [quote] ++ ':' :: rest))
      ⟨scalar cs false :: emitted, columns, noted emitted columns allowed ⟨quote, line, column⟩,
        [], false⟩
      (spread line (column + (quote :: body ++ [quote]).length) (':' :: rest)) := by
  have hbreak : isBreak quote = false := by
    rcases hq with rfl | rfl <;> decide
  have hlen : column + (quote :: body ++ [quote]).length = column + 1 + body.length + 1 := by
    simp only [List.length_append, List.length_cons, List.length_nil]
    omega
  rw [hlen, List.cons_append, List.cons_append, spread_text hbreak, List.append_assoc]
  refine leads_quoted_scalar hq hreach hscan ?_
  simp only [length_spread, List.length_append, List.length_cons]
  omega

/-- A plain scalar before a colon. -/
theorem leads_plain_name {c : Char} {more : List Char} (h : Style.FitsPlain (c :: more))
    (hreach : Reaches columns column)
    (hr : Source.atGap (spread line (column + (c :: more).length + 1) rest) = true) :
    Leads ⟨emitted, columns, none, [], allowed⟩ (spread line column (c :: more ++ ':' :: rest))
      ⟨scalar (c :: more) true :: emitted, columns,
        noted emitted columns allowed ⟨c, line, column⟩, [], false⟩
      (spread line (column + (c :: more).length) (':' :: rest)) := by
  have hbound : (indent ⟨emitted, columns, none, [], allowed⟩ + 1).toNat ≤ column + 1 := by
    have hle := indent_le (l := ⟨emitted, columns, none, [], allowed⟩) hreach
    omega
  have hscan := scan_plain line h (by simp) hbound (Plain.scan_colon _ _ _ hr)
  have hstart : StartsPlain ⟨c, line, column⟩ (spread line (column + 1) (more ++ ':' :: rest)) :=
    startsPlain h fun _ => ⟨rest, rfl⟩
  rw [List.cons_append, spread_text (h.line c (by simp))] at hscan ⊢
  exact leads_plain_scalar hstart hreach hscan (by simp)

/-- A name is read as the scalar before its colon. -/
theorem leads_name {name : String} (hs : Style.isSimpleKey name = true)
    (hreach : Reaches columns column)
    (hr : Source.atGap (spread line (column + (Style.writeKey name).length + 1) rest) = true) :
    ∃ c, Leads ⟨emitted, columns, none, [], true⟩
        (spread line column (Style.writeKey name ++ ':' :: rest))
      ⟨token name :: emitted, columns, noted emitted columns true ⟨c, line, column⟩, [], false⟩
      (spread line (column + (Style.writeKey name).length) (':' :: rest)) := by
  simp only [Style.isSimpleKey, Bool.and_eq_true, Bool.not_eq_true', Style.hasBreak,
    List.any_eq_false] at hs
  have hbreak : ∀ c ∈ name.toList, isBreak c = false := fun c hc => by simpa using hs.2 c hc
  cases hstyle : Style.ofText name with
  | plain =>
    obtain ⟨hfit, -⟩ := Style.of_ofText_plain hstyle
    obtain ⟨c, more, hcs⟩ := List.exists_cons_of_ne_nil (Style.toList_ne_nil_of_plain hstyle)
    have hkey : Style.writeKey name = c :: more := by simp [Style.writeKey, hstyle, hcs]
    rw [hkey] at hr ⊢
    rw [hcs] at hfit
    rw [token_plain hstyle, hcs]
    exact ⟨c, leads_plain_name hfit hreach hr⟩
  | single =>
    obtain ⟨hfit, -⟩ := Style.of_ofText_single hstyle
    have hkey : Style.writeKey name = Style.singleQuoted 0 name.toList := by
      simp [Style.writeKey, hstyle]
    have hp : ∀ c ∈ name.toList, Style.isPrintable c = true ∧ isBreak c = false :=
      fun c hc => ⟨hfit.printable c hc, hbreak c hc⟩
    rw [token_of_ne (by simp [hstyle]), hkey]
    refine ⟨'\'', leads_quoted_name (.inl rfl) hreach ?_⟩
    exact Quoted.scan_single_line (Nat.succ_pos column) hp (by simp)
  | double =>
    have hkey : Style.writeKey name = Style.doubleQuoted name.toList := by
      simp [Style.writeKey, hstyle]
    rw [token_of_ne (by simp [hstyle]), hkey]
    exact ⟨'"', leads_quoted_name (.inr rfl) hreach (Quoted.scan_double (Nat.succ_pos column))⟩
  | literal =>
    obtain ⟨-, -, hline⟩ := Style.of_ofText_literal hstyle
    exact absurd (hbreak _ hline) (by decide)

/-- A name and its colon start a field. -/
theorem leads_key {name : String} (h : Enters .blockMapping column emitted columns emitted'
    columns')
    (hs : Style.isSimpleKey name = true)
    (hr : ∀ n, Source.atGap (spread line n rest) = true) :
    ∃ column', column < column' ∧ Leads ⟨emitted, columns, none, [], true⟩
        (spread line column (Style.writeKey name ++ ':' :: rest))
      ⟨.value :: token name :: .key :: emitted', column :: columns', none, [], false⟩
      (spread line column' rest) := by
  have hlen := Style.length_writeKey_le hs
  obtain ⟨c, hname⟩ := leads_name hs h.reaches (hr (column + (Style.writeKey name).length + 1))
  refine ⟨column + (Style.writeKey name).length + 1, by omega, hname.trans ?_⟩
  exact leads_colon h (by omega) (by omega) (hr _)

/-- A blank between tokens is passed over. -/
theorem leads_space {key : Option PossibleKey} (line column : Nat) (rest : List Char) :
    Leads ⟨emitted, columns, key, [], allowed⟩ (spread line column (' ' :: rest))
      ⟨emitted, columns, key, [], allowed⟩ (spread line (column + 1) rest) := by
  have hspace : isBreak ' ' = false := by decide
  refine ⟨0, by simp, fun fuel => ?_⟩
  rw [spread_text hspace, run_succ, run_succ]
  simp only [inFlow, List.isEmpty_nil, Bool.not_true, skipToToken_space]

/-- The two kinds of brackets and their tokens. -/
inductive Brackets : Char → Char → Token → Token → Prop where
  | sequence : Brackets '[' ']' .flowSequence .flowSequenceEnd
  | mapping : Brackets '\x7b' '\x7d' .flowMapping .flowMappingEnd

variable {left right : Char} {opens closes : Token}

theorem Brackets.startsToken (h : Brackets left right opens closes) :
    StartsToken left ∧ StartsToken right := by
  cases h <;> decide

theorem Brackets.step_left (h : Brackets left right opens closes) {l : Layout} {rest : Source} :
    l.step ⟨left, line, column⟩ rest =
      (l.openFlow? ⟨left, line, column⟩ opens).bind fun l => some (l, rest) := by
  cases h <;> simp [step, atMarker_of_ne]

theorem Brackets.step_right (h : Brackets left right opens closes) {l : Layout} {rest : Source} :
    l.step ⟨right, line, column⟩ rest = (l.closeFlow? closes).bind fun l => some (l, rest) := by
  cases h <;> simp [step, atMarker_of_ne]

theorem openFlow?_none (p : Placed) (t : Token) :
    openFlow? p t ⟨emitted, columns, none, [], allowed⟩ =
      some ⟨t :: emitted, columns, none, [noted emitted columns allowed p], true⟩ := by
  cases allowed <;> simp [openFlow?, noteKey?, noted, dropKey?, inFlow, emit, allowKey, indent]

/-- A key does not expire on its line before many more characters. -/
theorem expire?_noted (c d : Char) {t : Token} {start : Nat} (h : column ≤ start + 1024) :
    expire? ⟨d, line, column⟩
        ⟨t :: emitted, columns, none, [noted emitted columns allowed ⟨c, line, start⟩], true⟩ =
      some ⟨t :: emitted, columns, none, [noted emitted columns allowed ⟨c, line, start⟩],
        true⟩ := by
  have hlate : ¬ start + 1024 < column := by omega
  cases allowed <;> simp [expire?, noted, PossibleKey.expired, hlate]

/-- An empty collection in brackets, up to the token that follows its line. -/
theorem leads_empty {outer : Nat} {extra : List Char} (hb : Brackets left right opens closes)
    (hc : outer < column) (he : Ending extra) (hr : NextWithin outer rest) :
    ∃ line', Leads ⟨emitted, outer :: columns, none, [], allowed⟩
        (spread line column (left :: right :: '\n' :: extra ++ rest))
      ⟨closes :: opens :: emitted, outer :: columns, none, [], true⟩ (land line' rest) := by
  obtain ⟨hleft, hright⟩ := hb.startsToken
  obtain ⟨line', hline⟩ : ∃ line', Leads ⟨closes :: opens :: emitted, outer :: columns,
      noted emitted (outer :: columns) allowed ⟨left, line, column⟩, [], false⟩ _ _ _ :=
    leads_line (column + 2) hc (Nat.le_refl line) he hr _
  have hopen : Leads ⟨emitted, outer :: columns, none, [], allowed⟩
      (spread line column (left :: right :: '\n' :: extra ++ rest))
      ⟨opens :: emitted, outer :: columns, none,
        [noted emitted (outer :: columns) allowed ⟨left, line, column⟩], true⟩
      (spread line (column + 1) (right :: '\n' :: extra ++ rest)) := by
    rw [List.cons_append, spread_text hleft.1]
    refine leads_step hleft (expire?_none _) ?_ (Nat.le_refl _)
    rw [unroll_reaches (reaches_cons.mpr (Nat.le_of_lt hc)), hb.step_left, openFlow?_none]
    rfl
  refine ⟨line', (hopen.trans ?_).trans hline⟩
  rw [List.cons_append, spread_text hright.1]
  refine leads_step hright (expire?_noted left right (by omega)) ?_ (Nat.le_refl _)
  have hreach : Reaches (outer :: columns) (column + 1) := reaches_cons.mpr (by omega)
  rw [unroll_reaches hreach, hb.step_right]
  rfl

/-- The mark between two documents closes the first one. -/
theorem leads_mark (emitted : List Token) (line : Nat) (rest : List Char) :
    Leads ⟨emitted, [0], none, [], true⟩ (spread line 0 ('-' :: '-' :: '-' :: '\n' :: rest))
      ⟨.documentStart :: .blockEnd :: emitted, [], none, [], false⟩
      (spread line 3 ('\n' :: rest)) := by
  have hdash : isBreak '-' = false := by decide
  have hline : isBreak '\n' = true := by decide
  have hstart : StartsToken '-' := by decide
  rw [spread_text hdash, spread_text hdash, spread_text hdash, spread_break hline]
  refine leads_step hstart (expire?_none _) ?_ (by simp)
  rfl

end ServiceMaps.Yaml.Layout
