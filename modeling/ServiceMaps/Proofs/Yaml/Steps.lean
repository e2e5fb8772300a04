import ServiceMaps.Proofs.Yaml.Leads
import ServiceMaps.Proofs.Yaml.BlockScalars
import ServiceMaps.Proofs.Yaml.Styles

/-!
The tokens of scalars, one step each, outside of flow collections. Every lemma says which layout the
step leads to and where it stops reading. A text in any style is read back as it was written, except
that one which keeps all its breaks takes in a line feed that stands behind it.
-/
namespace ServiceMaps.Yaml.Layout

variable {emitted : List Token} {columns : List Nat} {allowed : Bool} {line column : Nat}

/-- No open block collection stands to the right of a column. -/
def Reaches (columns : List Nat) (column : Nat) : Prop := ∀ c ∈ columns.head?, c ≤ column

theorem reaches_cons {c column : Nat} {columns : List Nat} :
    Reaches (c :: columns) column ↔ c ≤ column := by
  simp [Reaches]

theorem indent_le {l : Layout} (h : Reaches l.columns column) : l.indent ≤ column := by
  obtain ⟨emitted, columns, key, outer, allowed⟩ := l
  cases columns with
  | nil =>
    change (-1 : Int) ≤ column
    omega
  | cons c rest =>
    have hc : c ≤ column := reaches_cons.mp h
    change (c : Int) ≤ column
    omega

theorem expire?_none (p : Placed) : expire? p ⟨emitted, columns, none, [], allowed⟩ =
    some ⟨emitted, columns, none, [], allowed⟩ := rfl

theorem unroll_reaches {key : Option PossibleKey} {outer : List (Option PossibleKey)}
    (h : Reaches columns column) :
    unroll column ⟨emitted, columns, key, outer, allowed⟩ =
      ⟨emitted, columns, key, outer, allowed⟩ := by
  have hclose : closeColumns column columns emitted = (columns, emitted) := by
    cases columns with
    | nil => rfl
    | cons c rest =>
      have hc : c ≤ column := reaches_cons.mp h
      simp only [closeColumns]
      rw [if_neg (by omega)]
  cases outer with
  | nil => simp [unroll, inFlow, hclose]
  | cons k rest => simp [unroll, inFlow]

/-- The key that a token at a place may be. -/
def noted (emitted : List Token) (columns : List Nat) (allowed : Bool) (p : Placed) :
    Option PossibleKey :=
  if allowed then
    some ⟨indent ⟨emitted, columns, none, [], allowed⟩ == p.column, emitted.length, p.line,
      p.column⟩
  else none

theorem content?_none (p : Placed) (t : Token) :
    content? p t ⟨emitted, columns, none, [], allowed⟩ =
      some ⟨t :: emitted, columns, noted emitted columns allowed p, [], false⟩ := by
  cases allowed <;> simp [content?, noteKey?, noted, dropKey?, inFlow, emit, allowKey, indent]

/-- A token inside a collection, to the right of its column, cannot be one of its own keys. -/
theorem stale_noted {outer line' : Nat} (h : outer < column) (hl : line < line') (c : Char) :
    Stale (noted emitted (outer :: columns) allowed ⟨c, line, column⟩) line' := by
  intro k hk
  unfold noted at hk
  cases allowed with
  | false => simp at hk
  | true =>
    obtain rfl := Option.some.inj hk
    refine ⟨?_, hl⟩
    simp only [indent, beq_eq_false_iff_ne, ne_eq]
    omega

/-- A plain scalar may start with the character, as far as its first characters tell. -/
structure StartsPlain (p : Placed) (rest : Source) : Prop where
  token : StartsToken p.char
  never : Style.neverFirst p.char = false
  gap : p.char = '?' ∨ p.char = ':' ∨ p.char = '-' → rest.atGap = false
  mark : p.column = 0 → Source.atDocumentMark (p :: rest) = false

theorem step_plain {l : Layout} {p : Placed} {rest : Source} (hf : l.outer = [])
    (h : StartsPlain p rest) :
    l.step p rest = (Plain.scan false (l.indent + 1).toNat .empty (p :: rest)).bind fun r =>
      (l.content? p (scalar r.text true)).bind fun l => some (l.allowKey r.broken, r.rest) := by
  obtain ⟨c, line, column⟩ := p
  obtain ⟨⟨hbreak, hblank, -, -⟩, hnever, hgap, hmark⟩ := h
  simp only at hbreak hblank hnever hgap hmark
  have hflow : l.inFlow = false := by simp [inFlow, hf]
  have hmarks : ∀ d, d = '-' ∨ d = '.' →
      (decide (column = 0) && Source.atMarker d (⟨c, line, column⟩ :: rest)) = false := by
    intro d hd
    by_cases hzero : column = 0
    · have hnone := hmark hzero
      simp only [Source.atDocumentMark, Bool.or_eq_false_iff] at hnone
      rcases hd with rfl | rfl <;> simp [hnone]
    · simp [hzero]
  simp [Style.neverFirst] at hnever
  have hsign : c = '-' ∨ c = '?' ∨ c = ':' ∨ c ≠ '-' ∧ c ≠ '?' ∧ c ≠ ':' := by
    by_cases h : c = '-' <;> by_cases h' : c = '?' <;> by_cases h'' : c = ':' <;> simp [h, h', h'']
  rcases hsign with rfl | rfl | rfl | ⟨hdash, hquery, hcolon⟩
  · simp [step, hmarks, hgap, hflow]
  · simp [step, hmarks, hgap, hflow]
  · simp [step, hmarks, hgap, hflow]
  · simp [step, hmarks, hflow, hnever, hdash, hquery, hcolon, Source.atGap, hblank, hbreak,
      isIndicator]

theorem atMarker_of_ne {c d : Char} (h : c ≠ d) (rest : Source) :
    Source.atMarker d (⟨c, line, column⟩ :: rest) = false := by
  rcases rest with _ | ⟨q, _ | ⟨r, more⟩⟩ <;> simp [Source.atMarker, h]

theorem step_quote {l : Layout} {quote : Char} {rest : Source} (hq : quote = '\'' ∨ quote = '"') :
    l.step ⟨quote, line, column⟩ rest = (Quoted.scan quote .text .empty rest).bind fun r =>
      (l.content? ⟨quote, line, column⟩ (scalar r.1 false)).bind fun l => some (l, r.2) := by
  rcases hq with rfl | rfl <;> simp [step, atMarker_of_ne]

theorem step_literal {l : Layout} {rest : Source} (hf : l.outer = []) :
    l.step ⟨'|', line, column⟩ rest = (Block.scan false l.indent rest).bind fun r =>
      l.dropKey?.bind fun l => some ((l.allowKey true).emit (scalar r.1 false), r.2) := by
  have hflow : l.inFlow = false := by simp [inFlow, hf]
  simp [step, atMarker_of_ne, hflow]

/-- Three equal characters do not come first where they do not start the text, as the colon of a
name behind it is none of them. -/
theorem atMarker_eq_false {c d : Char} {cs : List Char} (hcs : ∀ e ∈ cs, isBreak e = false)
    (hd : d ≠ ':') (h : [d, d, d].isPrefixOf (c :: cs) = false) (more : List Char) :
    Source.atMarker d (⟨c, line, column⟩ :: spread line (column + 1) (cs ++ ':' :: more)) =
      false := by
  have hcolon : isBreak ':' = false := by decide
  rcases cs with _ | ⟨e, _ | ⟨f, cs⟩⟩
  · rw [List.nil_append, spread_text hcolon]
    rcases spread line (column + 1 + 1) more with _ | ⟨r, rest⟩ <;>
      simp [Source.atMarker, hd.symm]
  · rw [List.cons_append, List.nil_append, spread_text (hcs e (by simp)), spread_text hcolon]
    simp [Source.atMarker, hd.symm]
  · rw [List.cons_append, List.cons_append, spread_text (hcs e (by simp)),
      spread_text (hcs f (by simp))]
    simp only [List.isPrefixOf, Bool.and_eq_false_iff, beq_eq_false_iff_ne, ne_eq] at h
    simp only [Source.atMarker, Bool.and_eq_false_iff, decide_eq_false_iff_not]
    grind

/-- A text that fits starts as a plain scalar does. At the start of a line the colon of a name must
follow it. -/
theorem startsPlain {c : Char} {cs tail : List Char} (h : Style.FitsPlain (c :: cs))
    (hc : column = 0 → ∃ more, tail = ':' :: more) :
    StartsPlain ⟨c, line, column⟩ (spread line (column + 1) (cs ++ tail)) := by
  have hprint := h.printable c (by simp)
  have hspace : c ≠ ' ' := fun hs => h.head (by rw [hs]; rfl)
  have hind := h.indicator
  simp only [Style.hasIndicator, Bool.or_eq_false_iff] at hind
  obtain ⟨⟨⟨⟨hdash, hdot⟩, hnever⟩, hgap⟩, -⟩ := hind
  have hsharp : c ≠ '#' := by
    rintro rfl
    exact absurd hnever (by decide)
  refine ⟨⟨h.line c (by simp), ?_, hsharp, (isPrintable_ne hprint).2.2.2.1⟩, hnever, ?_, ?_⟩
  · rw [isBlank_of_isPrintable hprint]
    simpa using hspace
  · intro hsign
    have hsign' : (decide (c = '?') || decide (c = ':') || decide (c = '-')) = true := by
      simpa [or_assoc] using hsign
    rw [hsign', Bool.true_and] at hgap
    exact atGap_eq_false hgap tail
  · intro hzero
    obtain ⟨more, rfl⟩ := hc hzero
    have hline : ∀ d ∈ cs, isBreak d = false := fun d hd => h.line d (List.mem_cons_of_mem c hd)
    simp only [Source.atDocumentMark, Bool.or_eq_false_iff]
    exact ⟨atMarker_eq_false hline (by decide) hdash more,
      atMarker_eq_false hline (by decide) hdot more⟩

/-- A plain text is read up to the place where nothing more is read. -/
theorem scan_plain (line : Nat) {bound : Nat} {cs tail : List Char} {broken : Bool} {s : Source}
    (h : Style.FitsPlain cs) (hn : cs ≠ []) (hc : bound ≤ column + 1)
    (ht : Plain.scan false bound .empty (spread line (column + cs.length) tail) =
      some ⟨[], broken, s⟩) :
    Plain.scan false bound .empty (spread line column (cs ++ tail)) = some ⟨cs, broken, s⟩ := by
  obtain ⟨c, rest, rfl⟩ := List.exists_cons_of_ne_nil hn
  have hind := h.indicator
  simp only [Style.hasIndicator, Bool.or_eq_false_iff] at hind
  have hmark : Style.hasMark false (c :: rest) = false := by
    have hcolon : (decide (c = ':') && Style.startsGap rest) = false := by
      by_cases hc : c = ':' <;> simp_all
    simp only [Style.hasMark, hcolon, hind.2, Bool.and_false, Bool.or_false]
  have hp : ∀ d ∈ c :: rest, Style.isPrintable d = true ∧ isBreak d = false :=
    fun d hd => ⟨h.printable d hd, h.line d hd⟩
  have hb : ([] : List Char) = [] ∨ 0 < column ∧ bound ≤ column ∧ c :: rest ≠ [] ∧ false = true :=
    .inl rfl
  have hscan := Plain.scan_text hp hmark h.last hb hc ht
  rwa [List.append_nil] at hscan

variable {outer : Nat} {cs extra rest : List Char}

theorem length_land_append_le (line line' column : Nat) (before rest : List Char) :
    (land line' rest).length ≤ (spread line column (before ++ rest)).length := by
  have hle := length_land_le line' rest
  rw [length_spread, List.length_append]
  omega

/-- A plain scalar is one token, and a key may start where it does. -/
theorem leads_plain_scalar {p : Placed} {s : Source} {r : Plain.Read} (hstart : StartsPlain p s)
    (hreach : Reaches columns p.column)
    (hscan : Plain.scan false (indent ⟨emitted, columns, none, [], allowed⟩ + 1).toNat .empty
      (p :: s) = some r) (hl : r.rest.length ≤ s.length) :
    Leads ⟨emitted, columns, none, [], allowed⟩ (p :: s)
      ⟨scalar r.text true :: emitted, columns, noted emitted columns allowed p, [], r.broken⟩
      r.rest := by
  refine leads_step hstart.token (expire?_none _) ?_ hl
  rw [unroll_reaches hreach, step_plain rfl hstart, hscan]
  simp [content?_none, allowKey]

/-- A quoted scalar is one token, and a key may start where it does. -/
theorem leads_quoted_scalar {quote : Char} {s s' : Source} (hq : quote = '\'' ∨ quote = '"')
    (hreach : Reaches columns column)
    (hscan : Quoted.scan quote .text .empty s = some (cs, s')) (hl : s'.length ≤ s.length) :
    Leads ⟨emitted, columns, none, [], allowed⟩ (⟨quote, line, column⟩ :: s)
      ⟨scalar cs false :: emitted, columns, noted emitted columns allowed ⟨quote, line, column⟩,
        [], false⟩ s' := by
  have hstart : StartsToken quote := by
    rcases hq with rfl | rfl <;> decide
  refine leads_step hstart (expire?_none _) ?_ hl
  rw [unroll_reaches hreach, step_quote hq, hscan]
  simp [content?_none]

/-- A plain scalar up to the token that follows its line. -/
theorem leads_plain (h : Style.FitsPlain cs) (hn : cs ≠ []) (hc : outer < column)
    (he : Ending extra) (hr : NextWithin outer rest) :
    ∃ line', Leads ⟨emitted, outer :: columns, none, [], allowed⟩
        (spread line column (cs ++ '\n' :: extra ++ rest))
      ⟨scalar cs true :: emitted, outer :: columns, none, [], true⟩ (land line' rest) := by
  obtain ⟨c, more, rfl⟩ := List.exists_cons_of_ne_nil hn
  refine ⟨line + 1 + extra.length, ?_⟩
  have hbreak := h.line c (by simp)
  have hbound : ((outer : Int) + 1).toNat ≤ column + 1 := by omega
  have hscan := scan_plain line h hn hbound
    (Plain.scan_newline line (column + (c :: more).length) he hr (by omega))
  have hstart : StartsPlain ⟨c, line, column⟩
      (spread line (column + 1) (more ++ ('\n' :: extra ++ rest))) :=
    startsPlain h fun hzero => absurd hzero (by omega)
  have hstale : Stale (noted emitted (outer :: columns) allowed ⟨c, line, column⟩)
      (line + 1 + extra.length) := stale_noted hc (by omega) c
  rw [List.cons_append, spread_text hbreak] at hscan
  rw [List.append_assoc, List.cons_append, spread_text hbreak]
  refine (leads_plain_scalar hstart (reaches_cons.mpr (Nat.le_of_lt hc)) hscan ?_).trans
    (leads_drop hstale hr)
  rw [← List.append_assoc]
  exact length_land_append_le ..

/-- What stands alone on its line, up to the token that follows. -/
theorem leads_line {line' : Nat} (column' : Nat) {p : Placed} (hp : outer < p.column)
    (hl : p.line ≤ line') (he : Ending extra) (hr : NextWithin outer rest) (read : List Token) :
    ∃ line'', Leads ⟨read, outer :: columns, noted emitted (outer :: columns) allowed p, [], false⟩
        (spread line' column' ('\n' :: extra ++ rest))
      ⟨read, outer :: columns, none, [], true⟩ (land line'' rest) := by
  refine ⟨line' + 1 + extra.length, (leads_newline _ _ he hr).trans (leads_drop ?_ hr)⟩
  exact stale_noted hp (by omega) p.char

/-- A quoted scalar up to the token that follows its line. -/
theorem leads_quoted {quote : Char} {body : List Char} (hq : quote = '\'' ∨ quote = '"')
    (hs : ∃ line' column', line ≤ line' ∧
      Quoted.scan quote .text .empty (spread line (column + 1) (body ++ ('\n' :: extra ++ rest))) =
        some (cs, spread line' column' ('\n' :: extra ++ rest)))
    (hc : outer < column) (he : Ending extra) (hr : NextWithin outer rest) :
    ∃ line', Leads ⟨emitted, outer :: columns, none, [], allowed⟩
        (spread line column (quote :: body ++ ('\n' :: extra ++ rest)))
      ⟨scalar cs false :: emitted, outer :: columns, none, [], true⟩ (land line' rest) := by
  obtain ⟨line', column', hl, hscan⟩ := hs
  have hbreak : isBreak quote = false := by
    rcases hq with rfl | rfl <;> decide
  obtain ⟨line'', hline⟩ : ∃ line'', Leads ⟨scalar cs false :: emitted, outer :: columns,
      noted emitted (outer :: columns) allowed ⟨quote, line, column⟩, [], false⟩ _ _ _ :=
    leads_line column' hc hl he hr _
  refine ⟨line'', ?_⟩
  rw [List.cons_append, spread_text hbreak]
  exact (leads_quoted_scalar hq (reaches_cons.mpr (Nat.le_of_lt hc)) hscan (by simp)).trans hline

/-- A block scalar up to the token that follows its lines. -/
theorem leads_literal (hn : cs ≠ []) (hp : ∀ c ∈ cs, Style.isPrintable c = true)
    (hc : outer < column) (he : Ending extra) (hr : NextWithin outer rest) :
    ∃ line', Leads ⟨emitted, outer :: columns, none, [], allowed⟩
        (spread line column (Style.literalHeader cs ++ '\n' ::
          (Style.literalBody (outer + 2) true cs ++ Block.lineEnd cs ++ extra ++ rest)))
      ⟨scalar (Block.held extra cs) false :: emitted, outer :: columns, none, [], true⟩
        (land line' rest) := by
  obtain ⟨line', -, hscan⟩ :=
    Block.scan_literal line (column + 1) hn hp (Nat.le_refl outer) he hr
  refine ⟨line', ?_⟩
  have hstart : StartsToken '|' := by decide
  rw [Block.literalHeader_eq, List.cons_append, List.cons_append, spread_text hstart.1]
  refine leads_step hstart (expire?_none _) ?_ ?_
  · rw [unroll_reaches (reaches_cons.mpr (Nat.le_of_lt hc)), step_literal rfl]
    simp only [indent]
    rw [hscan]
    rfl
  · have hle := length_land_le line' rest
    simp only [length_spread, List.length_append, List.length_cons]
    omega

/-- The text that is read back from a written one with `extra` behind it. -/
def reread (extra : List Char) (s : String) : String :=
  if Style.ofText s = .literal then String.ofList (Block.held extra s.toList) else s

@[simp] theorem reread_nil (s : String) : reread [] s = s := by
  unfold reread Block.held
  split <;> simp

/-- The token of a text. -/
def token (s : String) : Token := .scalar s (Style.ofText s = .plain)

theorem token_plain {s : String} (h : Style.ofText s = .plain) :
    token s = scalar s.toList true := by
  simp [token, h, scalar]

theorem token_of_ne {s : String} (h : Style.ofText s ≠ .plain) :
    token s = scalar s.toList false := by
  simp [token, h, scalar]

theorem reread_of_ne (extra : List Char) {s : String} (h : Style.ofText s ≠ .literal) :
    reread extra s = s := if_neg h

/-- A line feed behind a text does not make it plain. -/
theorem token_reread (extra : List Char) {s : String} (h : Style.ofText s = .literal) :
    token (reread extra s) = scalar (Block.held extra s.toList) false := by
  have hread : reread extra s = String.ofList (Block.held extra s.toList) := if_pos h
  have hmem : '\n' ∈ (reread extra s).toList := by
    have hline : '\n' ∈ s.toList := (Style.of_ofText_literal h).2.2
    rw [hread, String.toList_ofList, Block.held]
    split
    · exact List.mem_append_left _ hline
    · exact hline
  have hno : Style.ofText (reread extra s) ≠ .plain := by
    intro hplain
    have hbreak := (Style.of_ofText_plain hplain).1.line '\n' hmem
    exact absurd hbreak (by decide)
  rw [token_of_ne hno, hread, String.toList_ofList]

/-- A text in any style up to the token that follows its lines. -/
theorem leads_text (s : String) (hc : outer < column) (he : Ending extra)
    (hr : NextWithin outer rest) :
    ∃ line', Leads ⟨emitted, outer :: columns, none, [], allowed⟩
        (spread line column (Style.write (outer + 2) s ++ (extra ++ rest)))
      ⟨token (reread extra s) :: emitted, outer :: columns, none, [], true⟩ (land line' rest) := by
  unfold Style.write
  cases hstyle : Style.ofText s with
  | plain =>
    obtain ⟨hfit, -⟩ := Style.of_ofText_plain hstyle
    have hn := Style.toList_ne_nil_of_plain hstyle
    rw [reread_of_ne _ (by simp [hstyle]), token_plain hstyle]
    simpa using leads_plain hfit hn hc he hr
  | single =>
    obtain ⟨hfit, hline⟩ := Style.of_ofText_single hstyle
    have hp : ∀ c ∈ s.toList, Style.isPrintable c = true ∧ c ≠ '\n' :=
      fun c hc => ⟨hfit.printable c hc, fun h => hline (h ▸ hc)⟩
    have hscan : ∃ line' column', line ≤ line' ∧ Quoted.scan '\'' .text .empty
        (spread line (column + 1) (Style.singleBody (outer + 2) false s.toList ++ ['\'']
          ++ ('\n' :: extra ++ rest))) =
        some (s.toList, spread line' column' ('\n' :: extra ++ rest)) := by
      rw [List.append_assoc]
      exact Quoted.scan_single line (by omega) hp hfit.spaceBreak hfit.breakSpace
        (.empty (Nat.succ_pos column)) (by simp)
    rw [reread_of_ne _ (by simp [hstyle]), token_of_ne (by simp [hstyle])]
    simpa [Style.singleQuoted] using leads_quoted (.inl rfl) hscan hc he hr
  | double =>
    have hscan : ∃ line' column', line ≤ line' ∧ Quoted.scan '"' .text .empty
        (spread line (column + 1) (s.toList.flatMap Style.escaped ++ ['"']
          ++ ('\n' :: extra ++ rest))) =
        some (s.toList, spread line' column' ('\n' :: extra ++ rest)) := by
      rw [List.append_assoc]
      exact ⟨line, _, Nat.le_refl line, Quoted.scan_double (Nat.succ_pos column)⟩
    rw [reread_of_ne _ (by simp [hstyle]), token_of_ne (by simp [hstyle])]
    simpa [Style.doubleQuoted] using leads_quoted (.inr rfl) hscan hc he hr
  | literal =>
    obtain ⟨hfit, hn, -⟩ := Style.of_ofText_literal hstyle
    rw [token_reread _ hstyle]
    simpa [Block.endLine_literal _ hn] using leads_literal hn hfit.printable hc he hr

end ServiceMaps.Yaml.Layout
