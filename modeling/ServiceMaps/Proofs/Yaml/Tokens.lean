import ServiceMaps.Proofs.Yaml.Entries
import ServiceMaps.Proofs.Yaml.Numbers
import ServiceMaps.Proofs.Yaml.Padding

/-!
The tokens of a written value. `valueTokens` lists them without regard to indentation, and reading
a written value leads through exactly these, by induction on the value. What stands behind it only
matters where it ends: a line feed there leads to the tokens of the `padded` value.
-/
namespace ServiceMaps.Yaml

namespace Writing

open Layout (token)

mutual

/-- The tokens of a value. A `bare` list stands at the column of its name, so that nothing marks its
start and its end. -/
def valueTokens (bare : Bool) : Value → List Token
  | .null => [.scalar "null" true]
  | .bool b => [.scalar (if b then "true" else "false") true]
  | .int n => [.scalar (toString n) true]
  | .float x => [.scalar x.yamlText true]
  | .str s => [token s]
  | .arr items =>
    if items.isEmpty then [.flowSequence, .flowSequenceEnd]
    else if bare then itemTokens items
    else .blockSequence :: itemTokens items ++ [.blockEnd]
  | .obj fields =>
    if fields.isEmpty then [.flowMapping, .flowMappingEnd]
    else .blockMapping :: fieldTokens fields ++ [.blockEnd]

def itemTokens : List Value → List Token
  | [] => []
  | v :: rest => .blockEntry :: valueTokens false v ++ itemTokens rest

def fieldTokens : List (String × Value) → List Token
  | [] => []
  | (name, v) :: rest =>
    .key :: token name :: .value :: valueTokens (Style.isSimpleKey name) v ++ fieldTokens rest

end

end Writing

namespace Layout

open Yaml.Writing

variable {r : String → String → Prop} {emitted : List Token} {columns : List Nat} {allowed : Bool}
variable {line column outer : Nat} {extra rest : List Char}

/-- Whether a value is written on the line of its name. -/
def isInline : Value → Bool
  | .arr items => items.isEmpty
  | .obj fields => fields.isEmpty
  | _ => true

theorem afterDash_inline {v : Value} (h : isInline v = true) (indent : Nat) :
    afterDash indent v = afterName indent v := by
  cases v with
  | arr items => simp_all [isInline, afterDash, afterName]
  | obj fields => simp_all [isInline, afterDash, afterName]
  | _ => simp [afterDash, afterName]

/-- A plain scalar behind a blank. -/
theorem leads_word {cs : List Char} (h : Style.FitsPlain cs) (hn : cs ≠ []) (hc : outer < column)
    (he : Ending extra) (hr : NextWithin outer rest) :
    ∃ line', Leads ⟨emitted, outer :: columns, none, [], allowed⟩
        (spread line column (' ' :: cs ++ '\n' :: (extra ++ rest)))
      ⟨scalar cs true :: emitted, outer :: columns, none, [], true⟩ (land line' rest) := by
  obtain ⟨line', hread⟩ : ∃ line', Leads ⟨emitted, outer :: columns, none, [], allowed⟩
      (spread line (column + 1) (cs ++ '\n' :: extra ++ rest)) _ _ :=
    leads_plain h hn (Nat.lt_succ_of_lt hc) he hr
  refine ⟨line', (leads_space line column _).trans ?_⟩
  simpa using hread

/-- An empty collection behind a blank. -/
theorem leads_brackets {left right : Char} {opens closes : Token}
    (hb : Brackets left right opens closes) (hc : outer < column) (he : Ending extra)
    (hr : NextWithin outer rest) :
    ∃ line', Leads ⟨emitted, outer :: columns, none, [], allowed⟩
        (spread line column (' ' :: left :: right :: '\n' :: (extra ++ rest)))
      ⟨closes :: opens :: emitted, outer :: columns, none, [], true⟩ (land line' rest) := by
  obtain ⟨line', hread⟩ : ∃ line', Leads ⟨emitted, outer :: columns, none, [], allowed⟩
      (spread line (column + 1) (left :: right :: '\n' :: extra ++ rest)) _ _ :=
    leads_empty hb (Nat.lt_succ_of_lt hc) he hr
  exact ⟨line', (leads_space line column _).trans hread⟩

/-- A value on the line of its name, up to the token that follows. -/
theorem leads_inline {v : Value} (h : isInline v = true) (hv : v.Sound r) (bare : Bool)
    (hc : outer < column) (he : Ending extra) (hr : NextWithin outer rest) :
    ∃ line', Leads ⟨emitted, outer :: columns, none, [], allowed⟩
        (spread line column (afterName outer v ++ (extra ++ rest)))
      ⟨(valueTokens bare (padded extra v)).reverse ++ emitted, outer :: columns, none, [], true⟩
        (land line' rest) := by
  cases hv with
  | null =>
    have hfit : Style.FitsPlain "null".toList := Style.plain_of_fitsPlain (by decide)
    exact leads_word hfit (by decide) hc he hr
  | bool b =>
    cases b with
    | true =>
      have hfit : Style.FitsPlain "true".toList := Style.plain_of_fitsPlain (by decide)
      exact leads_word hfit (by decide) hc he hr
    | false =>
      have hfit : Style.FitsPlain "false".toList := Style.plain_of_fitsPlain (by decide)
      exact leads_word hfit (by decide) hc he hr
  | @int n _ _ =>
    have hn : (toString n).toList ≠ [] := by
      rw [Datum.toList_toString_int]
      exact withSign_ne_nil _ (numeralText_toDigits _)
    simpa [afterName, padded, valueTokens, scalar] using
      leads_word (fitsPlain_int n) hn hc he hr
  | @float x hf _ =>
    have hn : x.yamlText.toList ≠ [] := by
      obtain ⟨negative, cs, hs, hnum, -⟩ := Datum.toList_yamlText hf
      rw [hs]
      exact withSign_ne_nil negative hnum
    simpa [afterName, padded, valueTokens, scalar] using
      leads_word (fitsPlain_float hf) hn hc he hr
  | str s =>
    obtain ⟨line', hread⟩ : ∃ line', Leads ⟨emitted, outer :: columns, none, [], allowed⟩
        (spread line (column + 1) (Style.write (outer + 2) s ++ (extra ++ rest))) _ _ :=
      leads_text s (Nat.lt_succ_of_lt hc) he hr
    exact ⟨line', (leads_space line column _).trans hread⟩
  | @arr items _ =>
    obtain rfl : items = [] := List.isEmpty_iff.mp h
    exact leads_brackets .sequence hc he hr
  | @obj fields _ _ =>
    obtain rfl : fields = [] := List.isEmpty_iff.mp h
    exact leads_brackets .mapping hc he hr

/-- What follows a dash starts with a blank. -/
theorem afterDash_cons (indent : Nat) (v : Value) : ∃ more, afterDash indent v = ' ' :: more := by
  cases v with
  | bool b => cases b <;> exact ⟨_, rfl⟩
  | null => exact ⟨_, rfl⟩
  | int | float | str | arr | obj => simp [afterDash]

theorem atGap_afterDash (indent : Nat) (v : Value) (tail : List Char) (line column : Nat) :
    Source.atGap (spread line column (afterDash indent v ++ tail)) = true := by
  obtain ⟨more, h⟩ := afterDash_cons indent v
  rw [h]
  rfl

theorem atGap_afterName (indent : Nat) (v : Value) (tail : List Char) (line column : Nat) :
    Source.atGap (spread line column (afterName indent v ++ tail)) = true := by
  cases h : isInline v with
  | true =>
    rw [← afterDash_inline h]
    exact atGap_afterDash indent v tail line column
  | false =>
    cases v with
    | arr items =>
      have hn : items.isEmpty = false := h
      rw [afterName, hn]
      rfl
    | obj fields =>
      have hn : fields.isEmpty = false := h
      rw [afterName, hn]
      rfl
    | _ => simp [isInline] at h

theorem writeKey_cons (name : String) :
    ∃ c more, Style.writeKey name = c :: more ∧ StartsToken c := by
  have hsingle : StartsToken '\'' := by decide
  have hdouble : StartsToken '"' := by decide
  unfold Style.writeKey
  cases hstyle : Style.ofText name with
  | plain =>
    obtain ⟨hfit, -⟩ := Style.of_ofText_plain hstyle
    obtain ⟨c, more, hcs⟩ := List.exists_cons_of_ne_nil (Style.toList_ne_nil_of_plain hstyle)
    rw [hcs] at hfit
    have hstart : StartsPlain ⟨c, 0, 1⟩ (spread 0 (1 + 1) (more ++ [])) := startsPlain hfit nofun
    exact ⟨c, more, hcs, hstart.token⟩
  | single => exact ⟨'\'', _, rfl, hsingle⟩
  | double => exact ⟨'"', _, rfl, hdouble⟩
  | literal => exact ⟨'"', _, rfl, hdouble⟩

/-- Entries below each other start with a token at their column. -/
theorem land_entries (line : Nat) {c : Char} {more below here : List Char} (hc : StartsToken c)
    (hb : below = Style.spaces outer ++ here) (hh : here = c :: more) (tail : List Char) :
    NextWithin outer (below ++ tail) ∧ land line (below ++ tail) =
      spread line outer (here ++ tail) := by
  subst hb hh
  rw [List.append_assoc, List.cons_append]
  exact ⟨.inr ⟨outer, c, more ++ tail, rfl, Nat.le_refl _, hc⟩, land_spaces line outer hc _⟩

theorem items_below (indent : Nat) {items : List Value} (h : items ≠ []) :
    ∃ c more, StartsToken c ∧ itemsFrom indent false items = c :: more ∧
      itemsFrom indent true items = Style.spaces indent ++ itemsFrom indent false items := by
  obtain ⟨v, rest, rfl⟩ := List.exists_cons_of_ne_nil h
  have hdash : StartsToken '-' := by decide
  refine ⟨'-', afterDash indent v ++ itemsFrom indent true rest, hdash, ?_, ?_⟩
  · simp [itemsFrom, margin]
  · simp [itemsFrom, margin]

theorem fields_below (indent : Nat) {fields : List (String × Value)} (h : fields ≠ []) :
    ∃ c more, StartsToken c ∧ fieldsFrom indent false fields = c :: more ∧
      fieldsFrom indent true fields = Style.spaces indent ++ fieldsFrom indent false fields := by
  obtain ⟨⟨name, v⟩, rest, rfl⟩ := List.exists_cons_of_ne_nil h
  cases hs : Style.isSimpleKey name with
  | true =>
    obtain ⟨c, more, hkey, hc⟩ := writeKey_cons name
    refine ⟨c, more ++ ':' :: afterName indent v ++ fieldsFrom indent true rest, hc, ?_, ?_⟩
    · simp [fieldsFrom, margin, hs, hkey]
    · simp [fieldsFrom, margin, hs]
  | false =>
    have hquery : StartsToken '?' := by decide
    refine ⟨'?', ' ' :: Style.write (indent + 2) name ++ Style.spaces indent ++
      ':' :: afterDash indent v ++ fieldsFrom indent true rest, hquery, ?_, ?_⟩
    · simp [fieldsFrom, margin, hs]
    · simp [fieldsFrom, margin, hs]

/-- What follows a dash is read as the tokens of the value. -/
def ReadsDash (v : Value) : Prop :=
  ∀ {emitted columns column line extra rest}, Ending extra → NextWithin column rest →
    ∃ line', Leads ⟨emitted, column :: columns, none, [], true⟩
        (spread line (column + 1) (afterDash column v ++ (extra ++ rest)))
      ⟨(valueTokens false (padded extra v)).reverse ++ emitted, column :: columns, none, [], true⟩
        (land line' rest)

/-- What follows the colon of a name is read as the tokens of the value. -/
def ReadsName (v : Value) : Prop :=
  ∀ {emitted columns outer column line extra rest}, outer < column → Ending extra →
    NextWithin outer rest → ∃ line', Leads ⟨emitted, outer :: columns, none, [], false⟩
        (spread line column (afterName outer v ++ (extra ++ rest)))
      ⟨(valueTokens true (padded extra v)).reverse ++ emitted, outer :: columns, none, [], true⟩
        (land line' rest)

/-- Items below each other are read as their tokens. -/
def ReadsItems (items : List Value) : Prop :=
  ∀ {emitted columns emitted' columns' column line extra rest},
    Enters .blockSequence column emitted columns emitted' columns' → Ending extra →
    NextWithin column rest → ∃ line', Leads ⟨emitted, columns, none, [], true⟩
        (spread line column (itemsFrom column false items ++ (extra ++ rest)))
      ⟨(itemTokens (paddedItems extra items)).reverse ++ emitted', column :: columns', none, [],
        true⟩
        (land line' rest)

/-- Fields below each other are read as their tokens. -/
def ReadsFields (fields : List (String × Value)) : Prop :=
  ∀ {emitted columns emitted' columns' column line extra rest},
    Enters .blockMapping column emitted columns emitted' columns' → Ending extra →
    NextWithin column rest → ∃ line', Leads ⟨emitted, columns, none, [], true⟩
        (spread line column (fieldsFrom column false fields ++ (extra ++ rest)))
      ⟨(fieldTokens (paddedFields extra fields)).reverse ++ emitted', column :: columns', none, [],
        true⟩ (land line' rest)

/-- The last item takes in what stands behind the list. -/
theorem readsItems_one {v : Value} (hv : ReadsDash v) : ReadsItems [v] := by
  intro emitted columns emitted' columns' column line extra rest h he hr
  obtain ⟨line', hread⟩ : ∃ line',
      Leads ⟨.blockEntry :: emitted', column :: columns', none, [], true⟩
        (spread line (column + 1) (afterDash column v ++ (extra ++ rest))) _ _ := hv he hr
  refine ⟨line', ?_⟩
  simpa [itemsFrom, margin, itemTokens, paddedItems] using
    (leads_dash h (atGap_afterDash column v _ line _)).trans hread

theorem readsItems_cons {v : Value} {items : List Value} (hv : ReadsDash v) (hn : items ≠ [])
    (hitems : ReadsItems items) : ReadsItems (v :: items) := by
  intro emitted columns emitted' columns' column line extra rest h he hr
  obtain ⟨c, more, hc, hhere, hbelow⟩ := items_below column hn
  have hland := fun line => land_entries line hc hbelow hhere (extra ++ rest)
  obtain ⟨line₁, hread⟩ : ∃ line₁,
      Leads ⟨.blockEntry :: emitted', column :: columns', none, [], true⟩
        (spread line (column + 1)
        (afterDash column v ++ ([] ++ (itemsFrom column true items ++ (extra ++ rest))))) _ _ :=
    hv (.inl rfl) (hland 0).1
  rw [(hland line₁).2, padded_nil] at hread
  obtain ⟨line₂, hmore⟩ : ∃ line₂, Leads ⟨(valueTokens false v).reverse ++ .blockEntry :: emitted',
      column :: columns', none, [], true⟩
      (spread line₁ column (itemsFrom column false items ++ (extra ++ rest))) _ _ :=
    hitems .inside he hr
  refine ⟨line₂, ?_⟩
  have hempty : items.isEmpty = false := by simpa using hn
  simpa [itemsFrom, margin, itemTokens, paddedItems, hempty] using
    ((leads_dash h (atGap_afterDash column v _ line _)).trans hread).trans hmore

/-- A field of a mapping: its name and its value. -/
def fieldText (column : Nat) (name : String) (v : Value) : List Char :=
  if Style.isSimpleKey name then Style.writeKey name ++ ':' :: afterName column v
  else '?' :: ' ' :: Style.write (column + 2) name
    ++ Style.spaces column ++ ':' :: afterDash column v

theorem leads_field {name : String} {v : Value} {emitted' : List Token} {columns' : List Nat}
    (hname : ReadsName v) (hdash : ReadsDash v)
    (h : Enters .blockMapping column emitted columns emitted' columns') (he : Ending extra)
    (hr : NextWithin column rest) :
    ∃ line', Leads ⟨emitted, columns, none, [], true⟩
        (spread line column (fieldText column name v ++ (extra ++ rest)))
      ⟨(.key :: token name :: .value ::
        valueTokens (Style.isSimpleKey name) (padded extra v)).reverse ++ emitted',
        column :: columns', none, [], true⟩ (land line' rest) := by
  unfold fieldText
  cases hs : Style.isSimpleKey name with
  | true =>
    obtain ⟨start, hlt, hkey⟩ := leads_key h hs
      fun n => atGap_afterName column v (extra ++ rest) line n
    obtain ⟨line', hread⟩ : ∃ line', Leads ⟨.value :: token name :: .key :: emitted',
        column :: columns', none, [], false⟩
        (spread line start (afterName column v ++ (extra ++ rest))) _ _ := hname hlt he hr
    exact ⟨line', by simpa using hkey.trans hread⟩
  | false =>
    have hcolon : StartsToken ':' := by decide
    have hland := fun line => land_entries line hcolon (Eq.refl (Style.spaces column ++ _))
      (Eq.refl (':' :: afterDash column v)) (extra ++ rest)
    obtain ⟨line₁, htext⟩ : ∃ line₁, Leads ⟨.key :: emitted', column :: columns', none, [], true⟩
        (spread line (column + 2) (Style.write (column + 2) name ++ ([] ++ (Style.spaces column
          ++ ':' :: afterDash column v ++ (extra ++ rest))))) _ _ :=
      leads_text name (by omega) (.inl rfl) (hland 0).1
    rw [(hland line₁).2, reread_nil] at htext
    obtain ⟨line₂, hread⟩ : ∃ line₂, Leads ⟨.value :: token name :: .key :: emitted',
        column :: columns', none, [], true⟩
        (spread line₁ (column + 1) (afterDash column v ++ (extra ++ rest))) _ _ := hdash he hr
    have hgap := atGap_afterDash column v (extra ++ rest) line₁ (column + 1)
    have hvalue := (leads_value hgap).trans hread
    exact ⟨line₂, by simpa using
      (leads_query h rfl).trans ((leads_space line (column + 1) _).trans (htext.trans hvalue))⟩

theorem fieldsFrom_cons (column : Nat) (name : String) (v : Value)
    (fields : List (String × Value)) :
    fieldsFrom column false ((name, v) :: fields) =
      fieldText column name v ++ fieldsFrom column true fields := by
  simp [fieldsFrom, margin, fieldText]

/-- The last field takes in what stands behind the object. -/
theorem readsFields_one {name : String} {v : Value} (hname : ReadsName v) (hdash : ReadsDash v) :
    ReadsFields [(name, v)] := by
  intro emitted columns emitted' columns' column line extra rest h he hr
  obtain ⟨line', hread⟩ : ∃ line', Leads ⟨emitted, columns, none, [], true⟩
      (spread line column (fieldText column name v ++ (extra ++ rest))) _ _ :=
    leads_field hname hdash h he hr
  have hlast : fieldsFrom column false [(name, v)] = fieldText column name v := by
    rw [fieldsFrom_cons, fieldsFrom, List.append_nil]
  exact ⟨line', by simpa [hlast, fieldTokens, paddedFields] using hread⟩

theorem readsFields_cons {name : String} {v : Value} {fields : List (String × Value)}
    (hname : ReadsName v) (hdash : ReadsDash v) (hn : fields ≠ []) (hfields : ReadsFields fields) :
    ReadsFields ((name, v) :: fields) := by
  intro emitted columns emitted' columns' column line extra rest h he hr
  obtain ⟨c, more, hc, hhere, hbelow⟩ := fields_below column hn
  have hland := fun line => land_entries line hc hbelow hhere (extra ++ rest)
  obtain ⟨line₁, hread⟩ : ∃ line₁, Leads ⟨emitted, columns, none, [], true⟩
      (spread line column
        (fieldText column name v ++ ([] ++
          (fieldsFrom column true fields ++ (extra ++ rest))))) _ _ :=
    leads_field hname hdash h (.inl rfl) (hland 0).1
  rw [(hland line₁).2, padded_nil] at hread
  obtain ⟨line₂, hmore⟩ : ∃ line₂, Leads ⟨(.key :: token name :: .value ::
      valueTokens (Style.isSimpleKey name) v).reverse ++ emitted', column :: columns', none, [],
        true⟩
      (spread line₁ column (fieldsFrom column false fields ++ (extra ++ rest))) _ _ :=
    hfields .inside he hr
  refine ⟨line₂, ?_⟩
  have hempty : fields.isEmpty = false := by simpa using hn
  simpa [fieldsFrom_cons, fieldTokens, paddedFields, hempty] using hread.trans hmore

/-- A list behind a dash is a collection of its own, two columns further right. -/
theorem readsDash_arr {items : List Value} (hn : items ≠ []) (h : ReadsItems items) :
    ReadsDash (.arr items) := by
  intro emitted columns column line extra rest he hr
  have hempty : items.isEmpty = false := by simpa using hn
  obtain ⟨line', hread⟩ : ∃ line', Leads ⟨emitted, column :: columns, none, [], true⟩
      (spread line (column + 2) (itemsFrom (column + 2) false items ++ (extra ++ rest))) _ _ :=
    h (.opens (by simp)) he (hr.mono (by omega))
  have hclose := hread.trans (leads_close hr (by omega))
  exact ⟨line', by simpa [afterDash, hempty, padded, valueTokens] using
    (leads_space line (column + 1) _).trans hclose⟩

theorem readsDash_obj {fields : List (String × Value)} (hn : fields ≠ []) (h : ReadsFields fields) :
    ReadsDash (.obj fields) := by
  intro emitted columns column line extra rest he hr
  have hempty : fields.isEmpty = false := by simpa using hn
  obtain ⟨line', hread⟩ : ∃ line', Leads ⟨emitted, column :: columns, none, [], true⟩
      (spread line (column + 2) (fieldsFrom (column + 2) false fields ++ (extra ++ rest))) _ _ :=
    h (.opens (by simp)) he (hr.mono (by omega))
  have hclose := hread.trans (leads_close hr (by omega))
  exact ⟨line', by simpa [afterDash, hempty, padded, valueTokens] using
    (leads_space line (column + 1) _).trans hclose⟩

/-- A list behind a name stands at the column of the name, in the same collection. -/
theorem readsName_arr {items : List Value} (hn : items ≠ []) (h : ReadsItems items) :
    ReadsName (.arr items) := by
  intro emitted columns outer column line extra rest hc he hr
  have hempty : items.isEmpty = false := by simpa using hn
  obtain ⟨c, more, hstart, hhere, hbelow⟩ := items_below outer hn
  obtain ⟨hnext, hland⟩ := land_entries (line + 1) hstart hbelow hhere (extra ++ rest)
  obtain ⟨line', hread⟩ : ∃ line', Leads ⟨emitted, outer :: columns, none, [], true⟩
      (spread (line + 1) outer (itemsFrom outer false items ++ (extra ++ rest))) _ _ :=
    h .inside he hr
  have hline : Leads ⟨emitted, outer :: columns, none, [], false⟩
      (spread line column ('\n' :: [] ++ (itemsFrom outer true items ++ (extra ++ rest)))) _ _ :=
    leads_newline line column (.inl rfl) hnext
  rw [List.length_nil, Nat.add_zero, hland] at hline
  exact ⟨line', by simpa [afterName, hempty, padded, valueTokens] using hline.trans hread⟩

/-- An object behind a name stands two columns further right. -/
theorem readsName_obj {fields : List (String × Value)} (hn : fields ≠ []) (h : ReadsFields fields) :
    ReadsName (.obj fields) := by
  intro emitted columns outer column line extra rest hc he hr
  have hempty : fields.isEmpty = false := by simpa using hn
  obtain ⟨c, more, hstart, hhere, hbelow⟩ := fields_below (outer + 2) hn
  obtain ⟨hnext, hland⟩ := land_entries (line + 1) hstart hbelow hhere (extra ++ rest)
  obtain ⟨line', hread⟩ : ∃ line', Leads ⟨emitted, outer :: columns, none, [], true⟩
      (spread (line + 1) (outer + 2) (fieldsFrom (outer + 2) false fields ++
        (extra ++ rest))) _ _ :=
    h (.opens (by simp)) he (hr.mono (by omega))
  have hline : Leads ⟨emitted, outer :: columns, none, [], false⟩
      (spread line column ('\n' :: [] ++
        (fieldsFrom (outer + 2) true fields ++ (extra ++ rest)))) _ _ :=
    leads_newline line column (.inl rfl) hnext
  rw [List.length_nil, Nat.add_zero, hland] at hline
  have hclose := hread.trans (leads_close hr (by omega))
  exact ⟨line', by simpa [afterName, hempty, padded, valueTokens] using hline.trans hclose⟩

theorem readsDash_inline {v : Value} (h : isInline v = true) (hv : v.Sound r) : ReadsDash v := by
  intro emitted columns column line extra rest he hr
  rw [afterDash_inline h]
  exact leads_inline h hv false (Nat.lt_succ_self column) he hr

theorem readsName_inline {v : Value} (h : isInline v = true) (hv : v.Sound r) : ReadsName v := by
  intro emitted columns outer column line extra rest hc he hr
  exact leads_inline h hv true hc he hr

mutual

/-- Every value is read as its tokens, behind a dash and behind a name. -/
theorem reads_value : ∀ {v : Value}, v.Sound r → ReadsDash v ∧ ReadsName v
  | .null, hv => ⟨readsDash_inline rfl hv, readsName_inline rfl hv⟩
  | .bool _, hv => ⟨readsDash_inline rfl hv, readsName_inline rfl hv⟩
  | .int _, hv => ⟨readsDash_inline rfl hv, readsName_inline rfl hv⟩
  | .float _, hv => ⟨readsDash_inline rfl hv, readsName_inline rfl hv⟩
  | .str _, hv => ⟨readsDash_inline rfl hv, readsName_inline rfl hv⟩
  | .arr [], hv => ⟨readsDash_inline rfl hv, readsName_inline rfl hv⟩
  | .arr (v :: rest), .arr hv =>
    have h : ReadsItems (v :: rest) := reads_items (by simp) hv
    ⟨readsDash_arr (by simp) h, readsName_arr (by simp) h⟩
  | .obj [], hv => ⟨readsDash_inline rfl hv, readsName_inline rfl hv⟩
  | .obj (field :: rest), .obj _ hv =>
    have h : ReadsFields (field :: rest) := reads_fields (by simp) hv
    ⟨readsDash_obj (by simp) h, readsName_obj (by simp) h⟩

theorem reads_items : ∀ {items : List Value}, items ≠ [] → (∀ v ∈ items, v.Sound r) →
    ReadsItems items
  | [v], _, hv => readsItems_one (reads_value (hv v (by simp))).1
  | v :: w :: rest, _, hv =>
    readsItems_cons (reads_value (hv v (by simp))).1 (by simp)
      (reads_items (by simp) fun u hu => hv u (List.mem_cons_of_mem v hu))

theorem reads_fields : ∀ {fields : List (String × Value)}, fields ≠ [] →
    (∀ entry ∈ fields, entry.2.Sound r) → ReadsFields fields
  | [(name, v)], _, hv =>
    have h := reads_value (hv (name, v) (by simp))
    readsFields_one h.2 h.1
  | (name, v) :: field :: rest, _, hv =>
    have h := reads_value (hv (name, v) (by simp))
    readsFields_cons h.2 h.1 (by simp)
      (reads_fields (by simp) fun entry hentry => hv entry (List.mem_cons_of_mem _ hentry))

end

end Layout

end ServiceMaps.Yaml
