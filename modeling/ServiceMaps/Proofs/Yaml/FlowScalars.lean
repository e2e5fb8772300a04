import ServiceMaps.Proofs.Yaml.Places

/-!
Plain and quoted scalars as they are written and read. A plain scalar ends at the colon of a name
or at the end of its line; between double quotes every character is spelled so that it is read as
itself; between single quotes a text may run over several lines.
-/
namespace ServiceMaps.Yaml

theorem isPrintable_ne {c : Char} (h : Style.isPrintable c = true) :
    c ≠ '\t' ∧ c ≠ '\r' ∧ c ≠ '\u0085' ∧ c ≠ '\ufeff' ∧ c ≠ '\x00' := by
  refine ⟨?_, ?_, ?_, ?_, ?_⟩ <;> rintro rfl <;> exact absurd h (by decide)

theorem isBlank_of_isPrintable {c : Char} (h : Style.isPrintable c = true) :
    isBlank c = decide (c = ' ') := by
  simp [isBlank, (isPrintable_ne h).1]

/-- Where the text has no gap there is none in the source. -/
theorem atGap_eq_false {line column : Nat} {cs : List Char} (h : Style.startsGap cs = false)
    (tail : List Char) : Source.atGap (spread line column (cs ++ tail)) = false := by
  cases cs with
  | nil => simp [Style.startsGap] at h
  | cons c rest =>
    rw [List.cons_append, spread, Source.atGap]
    simp only [Style.startsGap, Style.isGap, Bool.or_eq_false_iff] at h
    simpa using h.1

namespace Plain

/-- A character of the text is read behind the blanks before it. -/
theorem scan_char {bound line column : Nat} {c : Char} {before : List Char} {rest : Source}
    (hblank : isBlank c = false) (hbreak : isBreak c = false)
    (hb : before = [] ∨ 0 < column ∧ bound ≤ column ∧ c ≠ '#')
    (hcolon : c = ':' → rest.atGap = false) :
    scan false bound (.blanks before) (⟨c, line, column⟩ :: rest) =
      (scan false bound .empty rest).map (.after (before ++ [c])) := by
  have hgo : (decide (Gap.blanks before ≠ .empty) && ((!false && decide (column < bound))
      || decide (c = '#') || (decide (column = 0) &&
        Source.atDocumentMark (⟨c, line, column⟩ :: rest)))) = false := by
    rcases hb with rfl | ⟨hpos, hbound, hsharp⟩
    · rfl
    · have hlt : ¬ column < bound := by omega
      have hzero : column ≠ 0 := by omega
      simp [hlt, hzero, hsharp]
  have hstop : (decide (c = ':') && rest.atGap) = false := by
    by_cases h : c = ':' <;> simp [h, hcolon]
  rw [scan, if_neg (by simp [hblank, hbreak]), if_neg (by simp [hblank]),
    if_neg (by simp only [hgo]; simp), if_neg (by simp), if_neg (by simp [hstop])]
  rfl

/-- A space or a break widens the gap. -/
theorem scan_blank {bound line column : Nat} {c : Char} {gap : Gap} {rest : Source}
    (h : c = ' ' ∨ isBreak c = true) :
    scan false bound gap (⟨c, line, column⟩ :: rest) = scan false bound (gap.extend c) rest := by
  have hwiden : (isBlank c && !(gap.broken && decide (column < bound) && decide (c = '\t'))
      || isBreak c) = true := by
    rcases h with rfl | h
    · simp [isBlank]
    · simp [h]
  rw [scan, if_pos hwiden]

/-- A text without marks is read up to its end, with the blanks before it. -/
theorem scan_text {bound line column : Nat} {cs tail before : List Char} {afterGap : Bool}
    {r : Read} (hp : ∀ c ∈ cs, Style.isPrintable c = true ∧ isBreak c = false)
    (hm : Style.hasMark afterGap cs = false) (hl : cs.getLast? ≠ some ' ')
    (hb : before = [] ∨ 0 < column ∧ bound ≤ column ∧ cs ≠ [] ∧ afterGap = true)
    (hc : bound ≤ column + 1)
    (ht : scan false bound .empty (spread line (column + cs.length) tail) = some r) :
    scan false bound (.blanks before) (spread line column (cs ++ tail)) =
      some ⟨before ++ cs ++ r.text, r.broken, r.rest⟩ := by
  induction cs generalizing column before afterGap with
  | nil =>
    obtain rfl : before = [] := hb.resolve_right fun h => h.2.2.1 rfl
    exact ht
  | cons c rest ih =>
    obtain ⟨⟨hprint, hbreak⟩, hrest⟩ := List.forall_mem_cons.mp hp
    simp only [Style.hasMark, Bool.or_eq_false_iff, Bool.and_eq_false_iff,
      decide_eq_false_iff_not] at hm
    obtain ⟨⟨hcolon, hsharp⟩, hm⟩ := hm
    have ht' : scan false bound .empty (spread line (column + 1 + rest.length) tail) = some r := by
      rw [← ht, List.length_cons, Nat.add_assoc, Nat.add_comm 1]
    have hlast : rest.getLast? ≠ some ' ' := by
      cases rest with
      | nil => simp
      | cons d more => exact hl
    rw [List.cons_append, spread_text hbreak]
    by_cases hspace : c = ' '
    · subst hspace
      have hne : rest ≠ [] := by
        rintro rfl
        exact hl rfl
      rw [scan_blank (.inl rfl), Gap.extend, if_neg (by simp [hbreak]),
        ih hrest hm hlast (.inr ⟨by omega, hc, hne, rfl⟩) (by omega) ht']
      simp
    · have hblank : isBlank c = false := by
        rw [isBlank_of_isPrintable hprint]
        simpa using hspace
      have hstart : before = [] ∨ 0 < column ∧ bound ≤ column ∧ c ≠ '#' :=
        hb.imp_right fun h => ⟨h.1, h.2.1, hsharp.resolve_right (by simp [h.2.2.2])⟩
      have hgap : c = ':' → (spread line (column + 1) (rest ++ tail)).atGap = false := by
        rintro rfl
        exact atGap_eq_false (hcolon.resolve_left (by simp)) tail
      have hrec : scan false bound .empty (spread line (column + 1) (rest ++ tail)) =
          some ⟨[] ++ rest ++ r.text, r.broken, r.rest⟩ :=
        ih hrest hm hlast (.inl (Eq.refl [])) (by omega) ht'
      rw [scan_char hblank hbreak hstart hgap, hrec]
      simp [Read.after]

/-- Before a colon that a gap follows nothing is read. -/
theorem scan_colon (bound line column : Nat) {rest : List Char}
    (h : Source.atGap (spread line (column + 1) rest) = true) :
    scan false bound .empty (spread line column (':' :: rest)) =
      some ⟨[], false, spread line column (':' :: rest)⟩ := by
  have hbreak : isBreak ':' = false := by decide
  rw [spread_text hbreak]
  simp [scan, hbreak, isBlank, h, Gap.broken, Gap.empty]

/-- Behind a break the indentation of the next line is passed over. -/
theorem scan_spaces {bound line column : Nat} {first later : List Char} (n : Nat) (cs : List Char) :
    scan false bound (.breaks first later) (spread line column (Style.spaces n ++ cs)) =
      scan false bound (.breaks first later) (spread line (column + n) cs) := by
  induction n generalizing column with
  | zero => rfl
  | succ n ih =>
    have hspace : isBreak ' ' = false := by decide
    rw [Style.spaces, List.replicate_succ, List.cons_append, spread_text hspace, ← Style.spaces,
      scan_blank (.inl rfl), Gap.extend, if_neg (by simp [hspace]), ih, Nat.add_assoc,
      Nat.add_comm 1]

/-- A token of a line that is not indented enough ends the scalar. -/
theorem scan_line {bound limit line : Nat} {first later rest : List Char}
    (h : NextWithin limit rest)
    (hl : limit < bound) : scan false bound (.breaks first later) (spread line 0 rest) =
      some ⟨[], true, land line rest⟩ := by
  rcases h with rfl | ⟨column, c, more, rfl, hc, hstart⟩
  · rfl
  · have hlt : column < bound := by omega
    rw [scan_spaces, Nat.zero_add, land_spaces _ _ hstart, spread_text hstart.1]
    simp [scan, hstart.1, hstart.2.1, Gap.empty, Gap.broken, hlt]

/-- At the end of a line the scalar ends too. -/
theorem scan_newline {bound limit : Nat} (line column : Nat) {extra rest : List Char}
    (he : Ending extra) (h : NextWithin limit rest) (hl : limit < bound) :
    scan false bound .empty (spread line column ('\n' :: extra ++ rest)) =
      some ⟨[], true, land (line + 1 + extra.length) rest⟩ := by
  have hbreak : isBreak '\n' = true := by decide
  have hstep : ∀ gap line column rest, scan false bound gap (spread line column ('\n' :: rest)) =
      scan false bound (gap.extend '\n') (spread (line + 1) 0 rest) := by
    intro gap line column rest
    rw [spread_break hbreak, scan_blank (.inr hbreak)]
  rw [List.cons_append, hstep]
  rcases he with rfl | rfl
  · exact scan_line h hl
  · rw [List.singleton_append, hstep]
    exact scan_line h hl

end Plain

namespace Quoted

/-- A character inside a line that belongs to no gap is a quote, a backslash or text. -/
theorem scan_solid {quote c : Char} {gap : Gap} {line column : Nat} {rest : Source}
    (hblank : isBlank c = false) (hbreak : isBreak c = false) (hc : 0 < column) :
    scan quote .text gap (⟨c, line, column⟩ :: rest) =
      if c = quote then
        match rest with
        | q :: later =>
          if quote = '\'' && q.char = '\'' then
            (scan quote .text .empty later).map (after (gap.text ++ ['\'']))
          else some (gap.text, q :: later)
        | [] => some (gap.text, [])
      else if quote = '"' && c = '\\' then (scan quote .escape .empty rest).map (after gap.text)
      else (scan quote .text .empty rest).map (after (gap.text ++ [c])) := by
  have hzero : column ≠ 0 := by omega
  rw [scan.eq_def]
  exact (if_neg (by simp [hblank, hbreak])).trans (if_neg (by simp [hzero]))

/-- A character of the text is read behind the gap before it. -/
theorem scan_char {quote c : Char} {gap : Gap} {line column : Nat} {rest : Source}
    (hblank : isBlank c = false) (hbreak : isBreak c = false) (hc : 0 < column) (hq : c ≠ quote)
    (hs : quote = '"' → c ≠ '\\') :
    scan quote .text gap (⟨c, line, column⟩ :: rest) =
      (scan quote .text .empty rest).map (after (gap.text ++ [c])) := by
  have hescape : ¬ (quote = '"' ∧ c = '\\') := fun h => hs h.1 h.2
  rw [scan_solid hblank hbreak hc, if_neg hq, if_neg (by simpa using hescape)]

/-- A blank widens the gap. -/
theorem scan_blank {quote c : Char} {gap : Gap} {line column : Nat} {rest : Source}
    (h : isBlank c = true ∨ isBreak c = true) :
    scan quote .text gap (⟨c, line, column⟩ :: rest) = scan quote .text (gap.extend c) rest := by
  rw [scan.eq_def]
  exact if_pos (by simpa using h)

theorem scan_backslash {gap : Gap} {line column : Nat} {rest : Source} (hc : 0 < column) :
    scan '"' .text gap (⟨'\\', line, column⟩ :: rest) =
      (scan '"' .escape .empty rest).map (after gap.text) := by
  rw [scan_solid (by decide) (by decide) hc, if_neg (by decide), if_pos (by decide)]

/-- The letter behind a backslash stands for a character or announces hexadecimal digits. -/
theorem scan_escape {letter : Char} {line column : Nat} {rest : Source}
    (hbreak : isBreak letter = false) :
    scan '"' .escape .empty (⟨letter, line, column⟩ :: rest) =
      match escape? letter, hexLength? letter with
      | some c, _ => (scan '"' .text .empty rest).map (after [c])
      | none, some n => scan '"' (.hex n 0) .empty rest
      | none, none => none := by
  rw [scan.eq_def]
  exact if_neg (by simp [hbreak])

/-- The closing quote ends the scalar, between single quotes unless another quote follows. -/
theorem scan_quote {quote : Char} {gap : Gap} {line column : Nat} {tail : List Char}
    (hblank : isBlank quote = false) (hbreak : isBreak quote = false) (hc : 0 < column)
    (ht : quote = '\'' → tail.head? ≠ some '\'') :
    scan quote .text gap (spread line column (quote :: tail)) =
      some (gap.text, spread line (column + 1) tail) := by
  rw [spread_text hbreak, scan_solid hblank hbreak hc, if_pos rfl]
  cases tail with
  | nil => rfl
  | cons c rest =>
    have hno : ¬ (quote = '\'' ∧ c = '\'') := fun ⟨hq, h⟩ => ht hq (by rw [h]; rfl)
    rw [spread]
    exact if_neg (by simpa using hno)

theorem digitValue?_upperHex {d : Nat} (h : d < 16) : digitValue? 16 (upperHex d) = some d := by
  have hall : ∀ d : Fin 16, digitValue? 16 (upperHex d) = some d.val := by decide
  exact hall ⟨d, h⟩

theorem isBreak_upperHex {d : Nat} (h : d < 16) : isBreak (upperHex d) = false := by
  have hall : ∀ d : Fin 16, isBreak (upperHex d) = false := by decide
  exact hall ⟨d, h⟩

theorem hexDigits_succ (digit : Nat → Char) (width n : Nat) :
    hexDigits digit (width + 1) n = digit (n / 16 ^ width % 16) :: hexDigits digit width n := by
  simp [hexDigits, List.range_succ]

/-- Hexadecimal digits are read as the number that they spell. -/
theorem scan_hex {width n value line column : Nat} {c : Char} {rest : List Char} (hw : 0 < width)
    (hs : scalar? (value * 16 ^ width + n % 16 ^ width) = some c) :
    scan '"' (.hex width value) .empty
        (spread line column (hexDigits upperHex width n ++ rest)) =
      (scan '"' .text .empty (spread line (column + width) rest)).map (after [c]) := by
  induction width generalizing value column with
  | zero => omega
  | succ width ih =>
    have hd : n / 16 ^ width % 16 < 16 := Nat.mod_lt _ (by omega)
    have hvalue : (value * 16 + n / 16 ^ width % 16) * 16 ^ width + n % 16 ^ width =
        value * 16 ^ (width + 1) + n % 16 ^ (width + 1) := by
      rw [Nat.pow_succ, Nat.mod_mul, Nat.add_mul, Nat.mul_assoc, Nat.mul_comm 16, Nat.add_assoc,
        Nat.mul_comm _ (16 ^ width), Nat.add_comm (16 ^ width * _)]
    rw [hexDigits_succ, List.cons_append, spread_text (isBreak_upperHex hd), scan]
    simp only [digitValue?_upperHex hd]
    cases width with
    | zero =>
      simp only [Nat.pow_zero, Nat.mod_one, Nat.mul_one, Nat.add_zero] at hvalue
      simp only [Nat.pow_zero] at hvalue ⊢
      rw [if_pos (by omega), hvalue, hs]
      simp [hexDigits]
    | succ width =>
      rw [if_neg (by omega), Nat.add_sub_cancel, ih (by omega) (by rw [hvalue]; exact hs),
        Nat.add_right_comm, Nat.add_assoc]

theorem escape?_escapeLetter {c letter : Char} (h : Style.escapeLetter? c = some letter) :
    escape? letter = some c ∧ isBreak letter = false := by
  unfold Style.escapeLetter? at h
  split at h <;> first
    | (obtain rfl := Option.some.inj h; exact ⟨rfl, by decide⟩)
    | simp at h

/-- A code point is the character that it was taken from. -/
theorem scalar?_toNat (c : Char) : scalar? c.toNat = some c := by
  have hv : c.toNat < 0xd800 ∨ 0xdfff < c.toNat ∧ c.toNat < 0x110000 := c.valid
  have hno : ((decide (0xd800 ≤ c.toNat) && decide (c.toNat ≤ 0xdfff)) ||
      decide (0x10ffff < c.toNat)) = false := by
    rcases hv with h | ⟨h, h'⟩
    · simp; omega
    · simp; omega
  rw [scalar?, hno, if_neg (by simp), Char.ofNat_toNat]

/-- A short escape is read as its character. -/
theorem scan_letter {c letter : Char} {gap : Gap} {line column : Nat} {rest : List Char}
    (h : Style.escapeLetter? c = some letter) (hc : 0 < column) :
    scan '"' .text gap (spread line column ('\\' :: letter :: rest)) =
      (scan '"' .text .empty (spread line (column + 2) rest)).map (after (gap.text ++ [c])) := by
  obtain ⟨hescape, hbreak⟩ := escape?_escapeLetter h
  have hslash : isBreak '\\' = false := by decide
  rw [spread_text hslash, spread_text hbreak, scan_backslash hc, scan_escape hbreak]
  simp only [hescape, Option.map_map]
  congr 1
  funext r
  simp [after]

/-- An escape of hexadecimal digits is read as its character. -/
theorem scan_code {c letter : Char} {gap : Gap} {line column width : Nat} {rest : List Char}
    (he : escape? letter = none) (hl : hexLength? letter = some width) (hb : isBreak letter = false)
    (hw : 0 < width) (hn : c.toNat < 16 ^ width) (hc : 0 < column) :
    scan '"' .text gap
        (spread line column ('\\' :: letter :: hexDigits upperHex width c.toNat ++ rest)) =
      (scan '"' .text .empty (spread line (column + 2 + width) rest)).map
        (after (gap.text ++ [c])) := by
  have hslash : isBreak '\\' = false := by decide
  have hs : scalar? (0 * 16 ^ width + c.toNat % 16 ^ width) = some c := by
    rw [Nat.zero_mul, Nat.zero_add, Nat.mod_eq_of_lt hn, scalar?_toNat]
  rw [List.cons_append, List.cons_append, spread_text hslash, spread_text hb, scan_backslash hc,
    scan_escape hb]
  simp only [he, hl]
  rw [scan_hex hw hs, Option.map_map]
  congr 1
  funext r
  simp [after]

theorem scan_escaped {c : Char} {gap : Gap} {line column : Nat} {rest : List Char}
    (hs : c ≠ ' ') (hc : 0 < column) :
    scan '"' .text gap (spread line column (Style.escaped c ++ rest)) =
      (scan '"' .text .empty (spread line (column + (Style.escaped c).length) rest)).map
        (after (gap.text ++ [c])) := by
  have hlen : ∀ width, (hexDigits upperHex width c.toNat).length = width := by simp [hexDigits]
  by_cases hplain : (Style.isPrintable c && !isBreak c && decide (c ≠ '"') && decide (c ≠ '\\')) =
    true
  · rw [Style.escaped, if_pos hplain]
    simp only [Bool.and_eq_true, Bool.not_eq_true', decide_eq_true_eq] at hplain
    obtain ⟨⟨⟨hprint, hbreak⟩, hquote⟩, hslash⟩ := hplain
    have hblank : isBlank c = false := by rw [isBlank_of_isPrintable hprint]; simpa using hs
    rw [List.singleton_append, spread_text hbreak,
      scan_char hblank hbreak hc hquote fun _ => hslash]
    rfl
  · rcases hletter : Style.escapeLetter? c with _ | letter
    · have hc32 : c.toNat < 16 ^ 8 := by
        have hv : c.toNat < 0xd800 ∨ 0xdfff < c.toNat ∧ c.toNat < 0x110000 := c.valid
        omega
      rw [Style.escaped, if_neg hplain, hletter]
      simp only []
      split
      · rw [scan_code rfl rfl (by decide) (by decide) (by omega) hc, List.length_cons,
          List.length_cons, hlen, Nat.add_assoc]
      · split
        · rw [scan_code rfl rfl (by decide) (by decide) (by omega) hc, List.length_cons,
            List.length_cons, hlen, Nat.add_assoc]
        · rw [scan_code rfl rfl (by decide) (by decide) hc32 hc, List.length_cons,
            List.length_cons, hlen, Nat.add_assoc]
    · rw [Style.escaped, if_neg hplain, hletter]
      exact scan_letter hletter hc

/-- A text between double quotes is read as it is. -/
theorem scan_double {cs before tail : List Char} {line column : Nat} (hc : 0 < column) :
    scan '"' .text (.blanks before)
        (spread line column (cs.flatMap Style.escaped ++ '"' :: tail)) =
      some (before ++ cs, spread line (column + (cs.flatMap Style.escaped).length + 1) tail) := by
  induction cs generalizing before column with
  | nil =>
    have hother : '"' = '\'' → tail.head? ≠ some '\'' := fun h => absurd h (by decide)
    rw [List.flatMap_nil, List.nil_append, scan_quote (by decide) (by decide) hc hother,
      List.append_nil]
    rfl
  | cons c rest ih =>
    rw [List.flatMap_cons, List.append_assoc]
    by_cases hspace : c = ' '
    · subst hspace
      have hescaped : Style.escaped ' ' = [' '] := by decide
      have hbreak : isBreak ' ' = false := by decide
      rw [hescaped, List.singleton_append, spread_text hbreak, scan_blank (.inl (by decide)),
        Gap.extend, if_neg (by simp [hbreak]), ih (by omega), List.append_assoc, List.length_append,
        ← Nat.add_assoc]
      rfl
    · rw [scan_escaped hspace hc]
      have hrec : scan '"' .text .empty (spread line (column + (Style.escaped c).length)
          (rest.flatMap Style.escaped ++ '"' :: tail)) = _ := ih (by omega)
      rw [hrec, List.length_append, ← Nat.add_assoc]
      simp [after, Gap.text]

theorem meets_cons {first second : Char → Bool} {c : Char} {rest : List Char}
    (h : Style.meets first second (c :: rest) = false) :
    (first c = true → ∀ d ∈ rest.head?, second d = false) ∧
      Style.meets first second rest = false := by
  cases rest with
  | nil => exact ⟨nofun, rfl⟩
  | cons d more =>
    obtain ⟨hc, hrest⟩ := Bool.or_eq_false_iff.mp h
    refine ⟨fun hf e he => ?_, hrest⟩
    obtain rfl := Option.some.inj he
    simpa [hf] using hc

theorem scan_spaces {quote : Char} {first later : List Char} {line column : Nat} (n : Nat)
    (cs : List Char) :
    scan quote .text (.breaks first later) (spread line column (Style.spaces n ++ cs)) =
      scan quote .text (.breaks first later) (spread line (column + n) cs) := by
  induction n generalizing column with
  | zero => rfl
  | succ n ih =>
    have hspace : isBreak ' ' = false := by decide
    rw [Style.spaces, List.replicate_succ, List.cons_append, spread_text hspace,
      scan_blank (.inl (by decide)), Gap.extend, if_neg (by simp [hspace]), ← Style.spaces, ih,
      Nat.add_assoc, Nat.add_comm 1]

/-- A doubled quote is read as one. -/
theorem scan_doubled {gap : Gap} {line column : Nat} {rest : List Char} (hc : 0 < column) :
    scan '\'' .text gap (spread line column ('\'' :: '\'' :: rest)) =
      (scan '\'' .text .empty (spread line (column + 2) rest)).map
        (after (gap.text ++ ['\''])) := by
  have hquote : isBreak '\'' = false := by decide
  rw [spread_text hquote, spread_text hquote, scan_solid (by decide) hquote hc, if_pos rfl]
  rfl

/-! ### Between single quotes -/

section Single

variable {indent line column : Nat} {c : Char} {cs rest tail : List Char}

theorem singleBody_break (broken : Bool) (h : isBreak c = true) :
    Style.singleBody indent broken (c :: rest) = c :: Style.singleBody indent true rest := by
  rw [Style.singleBody, if_pos h]

theorem singleBody_space :
    Style.singleBody indent false (' ' :: rest) = ' ' :: Style.singleBody indent false rest := by
  rw [Style.singleBody, if_neg (by decide)]
  rfl

theorem singleBody_text (broken : Bool) (hbreak : isBreak c = false) (hspace : c ≠ ' ') :
    Style.singleBody indent broken (c :: rest) =
      (if broken then Style.spaces indent else [])
        ++ ((if c = '\'' then ['\'', '\''] else [c]) ++ Style.singleBody indent false rest) := by
  rw [Style.singleBody, if_neg (by simp [hbreak])]
  simp [hspace]

/-- A character of the text is read behind the gap before it, also a quote, which is doubled. -/
theorem scan_single_text {gap : Gap} (hprint : Style.isPrintable c = true)
    (hbreak : isBreak c = false) (hspace : c ≠ ' ') (hc : 0 < column) :
    scan '\'' .text gap
        (spread line column ((if c = '\'' then ['\'', '\''] else [c]) ++ rest)) =
      (scan '\'' .text .empty (spread line
        (column + (if c = '\'' then ['\'', '\''] else [c]).length) rest)).map
          (after (gap.text ++ [c])) := by
  by_cases hquote : c = '\''
  · subst hquote
    exact scan_doubled hc
  · have hblank : isBlank c = false := by
      rw [isBlank_of_isPrintable hprint]
      simpa using hspace
    rw [if_neg hquote, List.singleton_append, spread_text hbreak,
      scan_char hblank hbreak hc hquote fun h => absurd h (by decide)]
    rfl

/-- The gap before the rest of a text between single quotes: blanks on the same line, which no
break follows, or breaks, which no blank follows. -/
inductive Pending (column : Nat) (cs : List Char) : Bool → Gap → Prop where
  | blanks {before : List Char} : 0 < column →
      (before = [] ∨ ∀ c ∈ cs.head?, isBreak c = false) → Pending column cs false (.blanks before)
  | breaks {first : Char} {later : List Char} : first ≠ '\n' → (∀ c ∈ cs.head?, c ≠ ' ') →
      Pending column cs true (.breaks [first] later)

namespace Pending

variable {broken : Bool} {gap : Gap}

theorem empty (hc : 0 < column) : Pending column cs false .empty := .blanks hc (.inl rfl)

/-- A break starts a gap of its own or makes the gap longer. -/
theorem extend_break (h : Pending column (c :: rest) broken gap) (hbreak : isBreak c = true)
    (hline : c ≠ '\n') (hnext : ∀ d ∈ rest.head?, d ≠ ' ') :
    Pending 0 rest true (gap.extend c) ∧ (gap.extend c).text = gap.text ++ [c] := by
  cases h with
  | @blanks before _ hbefore =>
    obtain rfl : before = [] := hbefore.resolve_right fun h => by simp [hbreak] at h
    rw [Gap.extend, if_pos hbreak]
    exact ⟨.breaks hline hnext, by simp [Gap.text, Gap.fold, hline]⟩
  | @breaks first later hfirst _ =>
    rw [Gap.extend, if_pos hbreak]
    exact ⟨.breaks hfirst hnext, by simp [Gap.text, Gap.fold, hfirst]⟩

/-- A blank of the text stands on the line of the text before it. -/
theorem extend_space (h : Pending column (' ' :: rest) broken gap)
    (hnext : ∀ d ∈ rest.head?, isBreak d = false) : broken = false ∧
      Pending (column + 1) rest false (gap.extend ' ') ∧
      (gap.extend ' ').text = gap.text ++ [' '] := by
  cases h with
  | blanks _ _ => exact ⟨rfl, .blanks (by omega) (.inr hnext), rfl⟩
  | breaks _ hfirst => exact absurd rfl (hfirst ' ' rfl)

/-- The indentation behind breaks is passed over. -/
theorem scan_margin (h : Pending column cs broken gap) (hi : 0 < indent) (line : Nat)
    (more : List Char) : ∃ column', 0 < column' ∧
      scan '\'' .text gap (spread line column ((if broken then Style.spaces indent else []) ++ more)) =
        scan '\'' .text gap (spread line column' more) := by
  cases h with
  | blanks hc _ => exact ⟨column, hc, rfl⟩
  | breaks _ _ => exact ⟨column + indent, by omega, scan_spaces indent more⟩

end Pending

/-- A text between single quotes is read as it is. -/
theorem scan_single (line : Nat) {indent column : Nat} {cs tail : List Char} {broken : Bool}
    {gap : Gap}
    (hi : 0 < indent) (hp : ∀ c ∈ cs, Style.isPrintable c = true ∧ c ≠ '\n')
    (hs : Style.meets Style.isSpace isBreak cs = false)
    (hb : Style.meets isBreak Style.isSpace cs = false) (hg : Pending column cs broken gap)
    (ht : tail.head? ≠ some '\'') :
    ∃ line' column', line ≤ line' ∧ scan '\'' .text gap
        (spread line column (Style.singleBody indent broken cs ++ '\'' :: tail)) =
      some (gap.text ++ cs, spread line' column' tail) := by
  induction cs generalizing gap broken line column with
  | nil =>
    obtain ⟨column', hc, hscan⟩ := hg.scan_margin hi line ('\'' :: tail)
    refine ⟨line, column' + 1, Nat.le_refl _, ?_⟩
    rw [Style.singleBody, hscan, scan_quote (by decide) (by decide) hc fun _ => ht, List.append_nil]
  | cons c rest ih =>
    obtain ⟨⟨hprint, hline⟩, hrest⟩ := List.forall_mem_cons.mp hp
    obtain ⟨hsc, hsr⟩ := meets_cons hs
    obtain ⟨hbc, hbr⟩ := meets_cons hb
    by_cases hbreak : isBreak c = true
    · have hnext : ∀ d ∈ rest.head?, d ≠ ' ' := fun d hd => by
        simpa [Style.isSpace] using hbc hbreak d hd
      obtain ⟨hg', htext⟩ := hg.extend_break hbreak hline hnext
      obtain ⟨line', column', hl, hr⟩ := ih (line + 1) hrest hsr hbr hg'
      refine ⟨line', column', by omega, ?_⟩
      rw [singleBody_break broken hbreak, List.cons_append, spread_break hbreak,
        scan_blank (.inr hbreak), hr, htext, List.append_assoc, List.singleton_append]
    · rw [Bool.not_eq_true] at hbreak
      by_cases hspace : c = ' '
      · subst hspace
        obtain ⟨rfl, hg', htext⟩ := hg.extend_space fun d hd => hsc rfl d hd
        obtain ⟨line', column', hl, hr⟩ := ih line hrest hsr hbr hg'
        refine ⟨line', column', hl, ?_⟩
        rw [singleBody_space, List.cons_append, spread_text hbreak, scan_blank (.inl (by decide)),
          hr, htext, List.append_assoc, List.singleton_append]
      · obtain ⟨start, hc, hscan⟩ := hg.scan_margin hi line
          ((if c = '\'' then ['\'', '\''] else [c])
            ++ (Style.singleBody indent false rest ++ '\'' :: tail))
        obtain ⟨line', column', hl, hr⟩ := ih line hrest hsr hbr (.empty (Nat.add_pos_left hc _))
        refine ⟨line', column', hl, ?_⟩
        rw [singleBody_text broken hbreak hspace, List.append_assoc, List.append_assoc, hscan,
          scan_single_text hprint hbreak hspace hc, hr]
        simp [after, Gap.text, Gap.empty]

/-- A text on one line between single quotes is read as it is, and its place is known. -/
theorem scan_single_line {indent line column : Nat} {cs before tail : List Char} (hc : 0 < column)
    (hp : ∀ c ∈ cs, Style.isPrintable c = true ∧ isBreak c = false) (ht : tail.head? ≠ some '\'') :
    scan '\'' .text (.blanks before)
        (spread line column (Style.singleBody indent false cs ++ '\'' :: tail)) =
      some (before ++ cs,
        spread line (column + (Style.singleBody indent false cs).length + 1) tail) := by
  induction cs generalizing before column with
  | nil =>
    rw [Style.singleBody, if_neg (by simp), List.nil_append,
      scan_quote (by decide) (by decide) hc fun _ => ht, List.append_nil]
    rfl
  | cons c rest ih =>
    obtain ⟨⟨hprint, hbreak⟩, hrest⟩ := List.forall_mem_cons.mp hp
    by_cases hspace : c = ' '
    · subst hspace
      rw [singleBody_space, List.cons_append, spread_text hbreak, scan_blank (.inl (by decide)),
        Gap.extend, if_neg (by simp [hbreak]), ih (by omega) hrest, List.append_assoc,
        List.length_cons, Nat.add_assoc column 1, Nat.add_comm 1]
      rfl
    · have hrec : ∀ n, scan '\'' .text .empty (spread line (column + n)
          (Style.singleBody indent false rest ++ '\'' :: tail)) = _ :=
        fun n => ih (Nat.add_pos_left hc n) hrest
      rw [singleBody_text false hbreak hspace, if_neg (by simp), List.nil_append,
        List.append_assoc, scan_single_text hprint hbreak hspace hc, hrec, List.length_append,
        ← Nat.add_assoc]
      simp [after, Gap.text]

end Single

end Quoted

end ServiceMaps.Yaml
