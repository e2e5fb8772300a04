import ServiceMaps.Proofs.Yaml.FlowScalars

/-!
Block scalars as they are written and read. The lines of a text are read as its characters up to
the last one that is no break, and then the breaks at the end; the mark in the header says how many
of those belong to the text. Where it says all, a line feed that stands behind the text is read as
one more of them.
-/
namespace ServiceMaps.Yaml.Block

open Style

variable {indent line column : Nat} {first later : List Char} {upper : Bool}
  {c : Char} {cs rest : List Char} {source : Source}

theorem literalBody_break (hc : isBreak c = true) (broken : Bool) :
    literalBody indent broken (c :: cs) = c :: literalBody indent true cs := by
  rw [literalBody, if_pos hc]

theorem literalBody_start (hc : isBreak c = false) :
    literalBody indent true (c :: cs) = spaces indent ++ c :: literalBody indent false cs := by
  rw [literalBody, if_neg (by simp [hc]), if_pos rfl]

theorem literalBody_inside (hc : isBreak c = false) :
    literalBody indent false (c :: cs) = c :: literalBody indent false cs := by
  rw [literalBody, if_neg (by simp [hc]), if_neg (by simp), List.nil_append]

/-- Indentation before a line is passed over. -/
theorem lines_spaces (n : Nat) (h : column + n ≤ indent) (cs : List Char) :
    lines false indent false first later upper (spread line column (spaces n ++ cs)) =
      lines false indent false first later upper (spread line (column + n) cs) := by
  induction n generalizing column with
  | zero => rfl
  | succ n ih =>
    have hspace : isBreak ' ' = false := by decide
    have hlt : column < indent := by omega
    rw [spaces, List.replicate_succ, List.cons_append, spread_text hspace, lines,
      if_pos (by simp [hlt]), ← spaces, ih (by omega), Nat.add_assoc, Nat.add_comm 1]

/-- A text whose last character, if it has one, is no break. -/
def EndsInText (cs : List Char) : Prop := ∀ c ∈ cs.getLast?, isBreak c = false

theorem endsInText_cons {c : Char} {cs : List Char} (h : EndsInText cs) (hc : isBreak c = false) :
    EndsInText (c :: cs) := by
  intro d hd
  cases cs with
  | nil =>
    obtain rfl : c = d := by simpa using hd
    exact hc
  | cons e more => exact h d hd

/-- A text whose last character, if it has one, is a break. -/
def EndsInBreak (cs : List Char) : Prop := ∀ c ∈ cs.getLast?, isBreak c = true

theorem EndsInBreak.tail {c : Char} {cs : List Char} (h : EndsInBreak (c :: cs)) :
    EndsInBreak cs := by
  cases cs with
  | nil => exact nofun
  | cons d more => exact h

theorem EndsInBreak.tail_ne_nil {c : Char} {cs : List Char} (h : EndsInBreak (c :: cs))
    (hc : isBreak c = false) : cs ≠ [] := by
  rintro rfl
  have hbreak : isBreak c = true := h c rfl
  simp [hc] at hbreak

/-- What stands before the breaks at the end of a text is determined. -/
theorem text_unique {xs ys breaks more : List Char} (h : xs ++ breaks = ys ++ more)
    (hb : ∀ c ∈ breaks, isBreak c = true) (hm : ∀ c ∈ more, isBreak c = true)
    (hx : EndsInText xs) (hy : EndsInText ys) : xs = ys := by
  have key : ∀ {xs ys breaks more : List Char}, (∀ c ∈ breaks, isBreak c = true) → EndsInText ys →
      ∀ between, ys = xs ++ between → breaks = between ++ more → xs = ys := by
    intro xs ys breaks more hb hy between he hbe
    rcases List.eq_nil_or_concat between with rfl | ⟨front, c, rfl⟩
    · simp [he]
    · have htext : isBreak c = false := hy c (by simp [he])
      have hbreak : isBreak c = true := hb c (by simp [hbe])
      simp [htext] at hbreak
  rcases List.append_eq_append_iff.mp h with ⟨between, he, hbe⟩ | ⟨between, he, hbe⟩
  · exact key hb hy between he hbe
  · exact (key hm hx between he hbe).symm

/-- What is read from inside a line spells the text, split where the breaks at its end start. -/
structure Completes (r : Read) (cs : List Char) : Prop where
  all : r.text ++ r.first ++ r.later = cs
  breaks : ∀ c ∈ r.first ++ r.later, isBreak c = true
  text : EndsInText r.text
  single : r.first.length = 1

/-- What is read from the start of a line spells the breaks before it and the text. If there is no
text, the breaks before stay divided as they were. -/
structure Continues (r : Read) (first later cs : List Char) : Prop where
  all : r.text ++ r.first ++ r.later = first ++ later ++ cs
  breaks : ∀ c ∈ r.first ++ r.later, isBreak c = true
  text : EndsInText r.text
  single : r.text ≠ [] → r.first.length = 1
  same : r.text = [] → r.first = first

/-- A character before the rest of a line. -/
theorem Completes.cons {r : Read} {c : Char} {cs : List Char} (h : Completes r cs)
    (hc : isBreak c = false) : Completes (r.after [c]) (c :: cs) where
  all := by simp [Read.after, ← h.all]
  breaks := h.breaks
  text := endsInText_cons h.text hc
  single := h.single

/-- The break that ends a line. -/
theorem Continues.completes {r : Read} {c : Char} {cs : List Char} (h : Continues r [c] [] cs) :
    Completes r (c :: cs) where
  all := by simpa using h.all
  breaks := h.breaks
  text := h.text
  single := by
    by_cases ht : r.text = []
    · rw [h.same ht]
      rfl
    · exact h.single ht

/-- A break before the start of the next line with text. -/
theorem Continues.cons {r : Read} {c : Char} {first later cs : List Char}
    (h : Continues r first (later ++ [c]) cs) : Continues r first later (c :: cs) where
  all := by simp [h.all]
  breaks := h.breaks
  text := h.text
  single := h.single
  same := h.same

/-- The first character of a line, behind the breaks before it. -/
theorem Completes.continues {r : Read} {c : Char} {first later cs : List Char} (h : Completes r cs)
    (hc : isBreak c = false) :
    Continues (r.after (first ++ later ++ [c])) first later (c :: cs) where
  all := by simp [Read.after, ← h.all]
  breaks := h.breaks
  text := by
    intro d hd
    refine endsInText_cons h.text hc d ?_
    simpa [Read.after, List.getLast?_append] using hd
  single := fun _ => h.single
  same := by simp [Read.after]

/-- A token that stands to the left of the lines ends them. -/
theorem lines_end {limit : Nat} {rest : List Char} (h : NextWithin limit rest)
    (hl : limit < indent) :
    lines false indent false first later upper (spread line 0 rest) =
      some ⟨[], first, later, land line rest⟩ := by
  rcases h with rfl | ⟨column, c, more, rfl, hc, hstart⟩
  · simp [lines]
  · have hlt : column < indent := by omega
    have hne : column ≠ indent := by omega
    have htab : c ≠ '\t' := by
      rintro rfl
      exact absurd hstart.2.1 (by decide)
    rw [lines_spaces _ (by omega), Nat.zero_add, land_spaces _ _ hstart, spread_text hstart.1]
    simp [lines, hstart.1, hstart.ne_space, htab, hne]

theorem joint_literal (first later : List Char) (upper lower : Bool) :
    joint false first later upper lower = first ++ later := by
  simp [joint]

/-- A line starts at its column with any character that is no break. -/
theorem lines_start (hc : isBreak c = false) :
    lines false indent false first later upper (⟨c, line, indent⟩ :: source) =
      (lines false indent true [] [] (isBlank c) source).map
        (.after (first ++ later ++ [c])) := by
  simp [lines, hc, joint_literal]

/-- A break at the start of a line is one more before the next line with text. -/
theorem lines_break (hc : isBreak c = true) :
    lines false indent false first later upper (⟨c, line, column⟩ :: source) =
      lines false indent false first (later ++ [c]) upper source := by
  have hspace : c ≠ ' ' := by
    rintro rfl
    exact absurd hc (by decide)
  have htab : c ≠ '\t' := by
    rintro rfl
    exact absurd hc (by decide)
  simp [lines, hc, hspace, htab]

/-- A break inside a line ends it. -/
theorem lines_newline (hc : isBreak c = true) :
    lines false indent true first later upper (⟨c, line, column⟩ :: source) =
      lines false indent false [c] [] upper source := by
  simp [lines, hc]

theorem lines_inside (hc : isBreak c = false) :
    lines false indent true first later upper (⟨c, line, column⟩ :: source) =
      (lines false indent true first later upper source).map (.after [c]) := by
  simp [lines, hc]

/-- The lines of a text are read back from the start of a line, behind the breaks before it. -/
def ReadsStart (indent : Nat) (rest cs : List Char) : Prop :=
  ∀ line first later upper, (∀ c ∈ first ++ later, isBreak c = true) →
    ∃ r line', line ≤ line' ∧
      lines false indent false first later upper
        (spread line 0 (literalBody indent true cs ++ rest)) = some r ∧
      r.rest = land line' rest ∧ Continues r first later cs

/-- The lines of a text are read back from inside a line. -/
def ReadsInside (indent : Nat) (rest cs : List Char) : Prop :=
  ∀ line column upper, ∃ r line', line < line' ∧
    lines false indent true [] [] upper
      (spread line column (literalBody indent false cs ++ rest)) = some r ∧
    r.rest = land line' rest ∧ Completes r cs

theorem readsStart_nil {limit : Nat} (hl : limit < indent) (hr : NextWithin limit rest) :
    ReadsStart indent rest [] := fun line first later _ hb =>
  ⟨⟨[], first, later, land line rest⟩, line, Nat.le_refl _, lines_end hr hl, rfl,
    ⟨by simp, hb, nofun, fun h => absurd rfl h, fun _ => rfl⟩⟩

theorem ReadsStart.break_start (h : ReadsStart indent rest cs) (hc : isBreak c = true) :
    ReadsStart indent rest (c :: cs) := by
  intro line first later upper hb
  have hb' : ∀ d ∈ first ++ (later ++ [c]), isBreak d = true := by
    rw [← List.append_assoc, List.forall_mem_append]
    exact ⟨hb, List.forall_mem_singleton.mpr hc⟩
  obtain ⟨r, line', hle, hlines, hrest, hcont⟩ := h (line + 1) first (later ++ [c]) upper hb'
  refine ⟨r, line', by omega, ?_, hrest, hcont.cons⟩
  rw [literalBody_break hc, List.cons_append, spread_break hc, lines_break hc, hlines]

theorem ReadsStart.break_inside (h : ReadsStart indent rest cs) (hc : isBreak c = true) :
    ReadsInside indent rest (c :: cs) := by
  intro line column upper
  obtain ⟨r, line', hle, hlines, hrest, hcont⟩ := h (line + 1) [c] [] upper (by simpa using hc)
  refine ⟨r, line', by omega, ?_, hrest, hcont.completes⟩
  rw [literalBody_break hc, List.cons_append, spread_break hc, lines_newline hc, hlines]

theorem ReadsInside.text_start (h : ReadsInside indent rest cs) (hc : isBreak c = false) :
    ReadsStart indent rest (c :: cs) := by
  intro line first later upper _
  obtain ⟨r, line', hlt, hlines, hrest, hcomp⟩ := h line (indent + 1) (isBlank c)
  refine ⟨r.after (first ++ later ++ [c]), line', by omega, ?_, hrest, hcomp.continues hc⟩
  rw [literalBody_start hc, List.append_assoc, lines_spaces _ (by omega), Nat.zero_add,
    List.cons_append, spread_text hc, lines_start hc, hlines]
  rfl

theorem ReadsInside.text_inside (h : ReadsInside indent rest cs) (hc : isBreak c = false) :
    ReadsInside indent rest (c :: cs) := by
  intro line column upper
  obtain ⟨r, line', hlt, hlines, hrest, hcomp⟩ := h line (column + 1) upper
  refine ⟨r.after [c], line', hlt, ?_, hrest, hcomp.cons hc⟩
  rw [literalBody_inside hc, List.cons_append, spread_text hc, lines_inside hc, hlines]
  rfl

/-- The lines of a text that ends in a break, from the start of a line or from inside one. -/
theorem lines_body {limit : Nat} (hl : limit < indent) (hr : NextWithin limit rest)
    (h : EndsInBreak cs) :
    ReadsStart indent rest cs ∧ (cs ≠ [] → ReadsInside indent rest cs) := by
  induction cs with
  | nil => exact ⟨readsStart_nil hl hr, fun hn => absurd rfl hn⟩
  | cons c cs ih =>
    obtain ⟨hstart, hinside⟩ := ih h.tail
    cases hc : isBreak c with
    | true => exact ⟨hstart.break_start hc, fun _ => hstart.break_inside hc⟩
    | false =>
      have hmore : ReadsInside indent rest cs := hinside (h.tail_ne_nil hc)
      exact ⟨hmore.text_start hc, fun _ => hmore.text_inside hc⟩

/-- What the breaks at the end of a text ask for. -/
def closing (cs : List Char) : Chomping :=
  match cs.reverse with
  | [] => .strip
  | [c] => if isBreak c then .keep else .strip
  | c :: d :: _ => if !isBreak c then .strip else if isBreak d then .keep else .clip

def Chomping.mark : Chomping → List Char
  | .strip => ['-']
  | .clip => []
  | .keep => ['+']

/-- Whether a text starts with a character that hides its indentation. -/
def hidesIndent (cs : List Char) : Bool := cs.head?.any fun c => c = ' ' || isBreak c

theorem literalHeader_eq (cs : List Char) :
    literalHeader cs =
      '|' :: (if hidesIndent cs then ['2'] else []) ++ (closing cs).mark := by
  unfold literalHeader closing hidesIndent
  rcases cs.reverse with _ | ⟨c, _ | ⟨d, more⟩⟩
  · rfl
  · cases h : isBreak c <;> simp [h, Chomping.mark]
  · cases h : isBreak c <;> cases h' : isBreak d <;> simp [h, h', Chomping.mark]

theorem closing_cases {cs : List Char} (h : cs ≠ []) :
    (closing cs = .strip ∧ EndsInText cs) ∨
    (closing cs = .clip ∧ ∃ front c, cs = front ++ [c] ∧ isBreak c = true ∧ front ≠ [] ∧
      EndsInText front) ∨
    (closing cs = .keep ∧ ∃ c ∈ cs.getLast?, isBreak c = true) := by
  rcases List.eq_nil_or_concat cs with rfl | ⟨front, c, rfl⟩
  · exact absurd rfl h
  · rcases List.eq_nil_or_concat front with rfl | ⟨more, d, rfl⟩
    · cases hc : isBreak c with
      | true => exact .inr (.inr ⟨by simp [closing, hc], c, by simp, hc⟩)
      | false => exact .inl ⟨by simp [closing, hc], by simpa [EndsInText] using hc⟩
    · cases hc : isBreak c with
      | false => exact .inl ⟨by simp [closing, hc], by simpa [EndsInText] using hc⟩
      | true =>
        cases hd : isBreak d with
        | true => exact .inr (.inr ⟨by simp [closing, hc, hd], c, by simp, hc⟩)
        | false =>
          exact .inr (.inl ⟨by simp [closing, hc, hd], more ++ [d], c, by simp, hc, by simp,
            by simpa [EndsInText] using hd⟩)

/-- The header is read as what it was written for. -/
theorem header?_literal (hint : Bool) (k : Chomping) (line column : Nat) (rest : List Char) :
    header? (spread line column ((if hint then ['2'] else []) ++ k.mark ++ '\n' :: rest)) =
      some (⟨k, if hint then 2 else 0⟩, spread (line + 1) 0 rest) := by
  cases hint <;> cases k <;> rfl

/-- A line feed ends the last line of a text that does not end in a break itself. -/
def lineEnd (cs : List Char) : List Char := if closing cs = .strip then ['\n'] else []

/-- The text that is read back, with a line feed behind it where all breaks are kept. -/
def held (extra cs : List Char) : List Char := if closing cs = .keep then cs ++ extra else cs

theorem isBreak_ending {extra : List Char} (he : Ending extra) : ∀ c ∈ extra, isBreak c = true := by
  rcases he with rfl | rfl
  · exact nofun
  · exact List.forall_mem_singleton.mpr (by decide)

theorem isBreak_lineEnd (cs : List Char) : ∀ c ∈ lineEnd cs, isBreak c = true := by
  unfold lineEnd
  split
  · exact List.forall_mem_singleton.mpr (by decide)
  · exact nofun

/-- The line feed ends the last line. -/
theorem endsInBreak_lineEnd (hn : cs ≠ []) : EndsInBreak (cs ++ lineEnd cs) := by
  rcases closing_cases hn with ⟨hk, -⟩ | ⟨hk, front, c, rfl, hc, -⟩ | ⟨hk, c, hc, hb⟩
  · rw [lineEnd, hk, if_pos rfl]
    simp [EndsInBreak, isBreak]
  · rw [lineEnd, hk, if_neg (by decide)]
    simpa [EndsInBreak] using hc
  · rw [lineEnd, hk, if_neg (by decide), List.append_nil]
    intro d hd
    rwa [Option.some.inj (hd.symm.trans hc)]

theorem EndsInBreak.ending {extra : List Char} (h : EndsInBreak cs) (he : Ending extra) :
    EndsInBreak (cs ++ extra) := by
  rcases he with rfl | rfl
  · rwa [List.append_nil]
  · simp [EndsInBreak, isBreak]

/-- The chomping takes off what was put behind the text. -/
theorem chomp_closing {extra : List Char} {r : Read} (hn : cs ≠ []) (he : Ending extra)
    (h : Continues r [] [] (cs ++ lineEnd cs ++ extra)) : chomp (closing cs) r = held extra cs := by
  have hall : r.text ++ (r.first ++ r.later) = cs ++ (lineEnd cs ++ extra) := by
    simpa using h.all
  rcases closing_cases hn with ⟨hk, ht⟩ | ⟨hk, front, c, rfl, hc, hfront, ht⟩ | ⟨hk, -⟩
  · have hmore : ∀ c ∈ lineEnd cs ++ extra, isBreak c = true :=
      List.forall_mem_append.mpr ⟨isBreak_lineEnd cs, isBreak_ending he⟩
    rw [hk, held, hk, if_neg (by decide)]
    exact text_unique hall h.breaks hmore h.text ht
  · rw [lineEnd, hk, if_neg (by decide), List.nil_append, List.append_assoc] at hall
    have htext : r.text = front :=
      text_unique hall h.breaks (List.forall_mem_cons.mpr ⟨hc, isBreak_ending he⟩) h.text ht
    rw [htext, List.append_cancel_left_eq] at hall
    obtain ⟨d, hd⟩ := List.length_eq_one_iff.mp (h.single (htext ▸ hfront))
    rw [hd, List.singleton_append, List.singleton_append] at hall
    obtain rfl := (List.cons.inj hall).1
    rw [hk, held, hk, if_neg (by decide), chomp, htext, hd]
  · rw [lineEnd, hk, if_neg (by decide), List.nil_append] at hall
    rw [hk, held, hk, if_pos rfl, chomp, List.append_assoc, hall]

theorem literalBody_append_breaks (indent : Nat) (cs : List Char) {breaks : List Char}
    (h : ∀ c ∈ breaks, isBreak c = true) (broken : Bool) :
    literalBody indent broken (cs ++ breaks) = literalBody indent broken cs ++ breaks := by
  induction cs generalizing broken with
  | nil =>
    induction breaks generalizing broken with
    | nil => rfl
    | cons c rest ih =>
      obtain ⟨hc, hrest⟩ := List.forall_mem_cons.mp h
      rw [List.nil_append, literalBody_break hc, ← List.nil_append rest, ih hrest]
      rfl
  | cons c rest ih =>
    rw [List.cons_append, literalBody, literalBody]
    cases hc : isBreak c with
    | true => simp [ih]
    | false => simp [ih]

theorem getLast?_literalBody (indent : Nat) (cs : List Char) (broken : Bool) :
    (literalBody indent broken cs).getLast? = cs.getLast? := by
  induction cs generalizing broken with
  | nil => rfl
  | cons c rest ih =>
    have hcons : ∀ d (xs ys : List Char), xs.getLast? = ys.getLast? →
        (d :: xs).getLast? = (d :: ys).getLast? := by
      intro d xs ys hxy
      rw [List.getLast?_cons, List.getLast?_cons, hxy]
    rw [literalBody]
    cases hc : isBreak c with
    | true => simpa using hcons c _ _ (ih true)
    | false =>
      rw [if_neg (by simp), List.getLast?_append, hcons c _ _ (ih false)]
      simp [List.getLast?_cons]

/-- The last line of a block scalar ends as its text does. -/
theorem getLast?_literal (indent : Nat) {cs : List Char} (h : cs ≠ []) :
    (literalHeader cs ++ '\n' :: literalBody indent true cs).getLast? = cs.getLast? := by
  rw [List.getLast?_append, List.getLast?_cons, getLast?_literalBody]
  cases hg : cs.getLast? with
  | none => exact absurd (List.getLast?_eq_none_iff.mp hg) h
  | some c => rfl

/-- The written scalar ends with a line feed, or with a break of the text. -/
theorem endLine_literal (indent : Nat) {cs : List Char} (h : cs ≠ []) :
    endLine (literalHeader cs ++ '\n' :: literalBody indent true cs) =
      literalHeader cs ++ '\n' :: (literalBody indent true cs ++ lineEnd cs) := by
  rw [endLine, getLast?_literal indent h, lineEnd]
  rcases closing_cases h with ⟨hk, ht⟩ | ⟨hk, front, c, rfl, hc, -⟩ | ⟨hk, c, hc, hb⟩
  · have hno : cs.getLast?.any isBreak = false := by
      cases hg : cs.getLast? with
      | none => rfl
      | some c => exact ht c hg
    simp [hno, hk]
  · simp [hk, hc]
  · obtain hc : cs.getLast? = some c := hc
    simp [hk, hc, hb]

/-- The indentation of the first line shows, unless a blank or a break hides it. -/
theorem leading_text {c : Char} (n : Nat) (hc : isBreak c = false) (hb : isBlank c = false)
    (line column : Nat) (rest : List Char) :
    leading 0 (spread line column (spaces n ++ c :: rest)) =
      some ([], column + n, spread line (column + n) (c :: rest)) := by
  induction n generalizing column with
  | zero =>
    simp only [isBlank, Bool.or_eq_false_iff, decide_eq_false_iff_not] at hb
    rw [spaces, List.replicate_zero, List.nil_append, Nat.add_zero, spread_text hc]
    simp [leading, hc, hb]
  | succ n ih =>
    have hspace : isBreak ' ' = false := by decide
    rw [spaces, List.replicate_succ, List.cons_append, spread_text hspace, leading, if_pos rfl,
      ← spaces, ih, Nat.add_assoc, Nat.add_comm 1]

/-- The lines behind a header with a hint are read at that indentation. -/
theorem scan_hinted (line column outer : Nat) (k : Chomping) (cs : List Char) :
    scan false outer (spread line column (['2'] ++ k.mark ++ '\n' :: cs)) =
      (lines false (outer + 2) false [] [] false (spread (line + 1) 0 cs)).map
        fun r => (chomp k r, r.rest) := by
  have hheader := header?_literal true k line column cs
  have hwidth : (max (outer : Int) 0).toNat + 2 = outer + 2 := by omega
  rw [if_pos rfl] at hheader
  rw [scan, hheader]
  simp only [Option.bind_eq_bind, Option.bind_some, if_true]
  rw [if_neg (by simp), hwidth]
  cases lines false (outer + 2) false [] [] false (spread (line + 1) 0 cs) <;> rfl

/-- The lines behind a header without a hint are read at the indentation of the first. -/
theorem scan_unhinted (line column outer : Nat) (k : Chomping) (hc : isBreak c = false)
    (hb : isBlank c = false) (cs : List Char) :
    scan false outer (spread line column (k.mark ++ '\n' :: (spaces (outer + 2) ++ c :: cs))) =
      (lines false (outer + 2) false [] [] false
        (spread (line + 1) 0 (spaces (outer + 2) ++ c :: cs))).map
        fun r => (chomp k r, r.rest) := by
  have hheader := header?_literal false k line column (spaces (outer + 2) ++ c :: cs)
  have hwidth : max (outer + 2) (max ((outer : Int) + 1).toNat 1) = outer + 2 := by omega
  rw [if_neg (by simp), List.nil_append] at hheader
  rw [scan, hheader]
  simp only [Option.bind_eq_bind, Option.bind_some, Bool.false_eq_true, if_false, if_true]
  rw [leading_text _ hc hb, lines_spaces _ (by omega), Nat.zero_add]
  simp only [Option.bind_some, hwidth]
  cases lines false (outer + 2) false [] [] false (spread (line + 1) (outer + 2) (c :: cs)) <;> rfl

/-- The header tells the indentation of the lines, or the first line shows it. -/
theorem scan_header (line column outer : Nat) (k : Chomping) (hn : cs ≠ [])
    (hp : ∀ c ∈ cs, isPrintable c = true) (more : List Char) :
    scan false outer (spread line column ((if hidesIndent cs then ['2'] else []) ++ k.mark ++
        '\n' :: (literalBody (outer + 2) true cs ++ more))) =
      (lines false (outer + 2) false [] [] false
        (spread (line + 1) 0 (literalBody (outer + 2) true cs ++ more))).map
        fun r => (chomp k r, r.rest) := by
  cases hh : hidesIndent cs with
  | true => exact scan_hinted line column outer k _
  | false =>
    obtain ⟨c, rest, rfl⟩ := List.exists_cons_of_ne_nil hn
    obtain ⟨hspace, hc⟩ : c ≠ ' ' ∧ isBreak c = false := by simpa [hidesIndent] using hh
    have hb : isBlank c = false := by
      rw [isBlank_of_isPrintable (hp c List.mem_cons_self)]
      simpa using hspace
    rw [if_neg (by simp), List.nil_append, literalBody_start hc, List.append_assoc,
      List.cons_append]
    exact scan_unhinted line column outer k hc hb _

/-- A block scalar in a collection at column `outer` is read back from its header on. -/
theorem scan_literal (line column : Nat) {limit outer : Nat} {cs extra rest : List Char}
    (hn : cs ≠ [])
    (hp : ∀ c ∈ cs, isPrintable c = true) (hl : limit ≤ outer) (he : Ending extra)
    (hr : NextWithin limit rest) :
    ∃ line', line < line' ∧
      scan false outer (spread line column ((if hidesIndent cs then ['2'] else [])
        ++ (closing cs).mark ++ '\n' :: (literalBody (outer + 2) true cs ++ lineEnd cs ++ extra
          ++ rest))) = some (held extra cs, land line' rest) := by
  have hbreaks : ∀ c ∈ lineEnd cs ++ extra, isBreak c = true :=
    List.forall_mem_append.mpr ⟨isBreak_lineEnd cs, isBreak_ending he⟩
  have hlast : EndsInBreak (cs ++ lineEnd cs ++ extra) := (endsInBreak_lineEnd hn).ending he
  have hlimit : limit < outer + 2 := by omega
  obtain ⟨r, line', hle, hlines, hrest, hcont⟩ :=
    (lines_body hlimit hr hlast).1 (line + 1) [] [] false (by simp)
  rw [List.append_assoc cs, literalBody_append_breaks _ _ hbreaks, List.append_assoc] at hlines
  refine ⟨line', by omega, ?_⟩
  rw [List.append_assoc (literalBody _ _ _), List.append_assoc (literalBody _ _ _),
    scan_header line column outer _ hn hp, hlines, Option.map_some, chomp_closing hn he hcont,
    hrest]

end ServiceMaps.Yaml.Block
