import ServiceMaps.Proofs.Yaml.FlowScalars

/-!
What the style of a text says about its characters, and how long a text can be as a key: a key has
no more than 128 octets, an escape takes at most four characters for each of them, and so the colon
comes well before the place where a key is given up.
-/
namespace ServiceMaps.Yaml.Style

/-- The characters of a text that is written without escapes. -/
structure Unescaped (cs : List Char) : Prop where
  printable : ∀ c ∈ cs, isPrintable c = true
  spaceBreak : meets isSpace isBreak cs = false

theorem unescaped_of_needsEscapes {cs : List Char} (h : needsEscapes cs = false) :
    Unescaped cs := by
  simp only [needsEscapes, Bool.or_eq_false_iff, List.any_eq_false, Bool.not_eq_true'] at h
  exact ⟨fun c hc => by simpa using h.2 c hc, h.1⟩

/-- A text between single quotes. -/
structure FitsSingle (cs : List Char) : Prop extends Unescaped cs where
  breakSpace : meets isBreak isSpace cs = false

theorem single_of_fitsSingle {cs : List Char} (h : fitsSingle cs = true) : FitsSingle cs := by
  simp only [fitsSingle, Bool.and_eq_true, Bool.not_eq_true'] at h
  exact ⟨unescaped_of_needsEscapes h.1, h.2⟩

/-- A text as a plain scalar. -/
structure FitsPlain (cs : List Char) : Prop extends FitsSingle cs where
  line : ∀ c ∈ cs, isBreak c = false
  head : cs.head? ≠ some ' '
  last : cs.getLast? ≠ some ' '
  indicator : hasIndicator cs = false

theorem plain_of_fitsPlain {cs : List Char} (h : fitsPlain cs = true) : FitsPlain cs := by
  simp only [fitsPlain, Bool.and_eq_true, Bool.not_eq_true', hasBreak, List.any_eq_false] at h
  obtain ⟨⟨⟨⟨hsingle, hbreak⟩, hhead⟩, hlast⟩, hindicator⟩ := h
  have hspace : ∀ {o : Option Char}, o.any isSpace = false → o ≠ some ' ' := by
    rintro o ho rfl
    exact absurd ho (by decide)
  exact ⟨single_of_fitsSingle hsingle, fun c hc => by simpa using hbreak c hc, hspace hhead,
    hspace hlast, hindicator⟩

theorem unescaped_of_fitsLiteral {cs : List Char} (h : fitsLiteral cs = true) :
    Unescaped cs ∧ cs ≠ [] := by
  simp only [fitsLiteral, Bool.and_eq_true, Bool.not_eq_true'] at h
  exact ⟨unescaped_of_needsEscapes h.1.1, by simpa using h.1.2⟩

variable {s : String}

theorem of_ofText_plain (h : ofText s = .plain) : FitsPlain s.toList ∧ isAmbiguous s = false := by
  unfold ofText wanted at h
  by_cases hline : s.toList.contains '\n' = true
  · rw [if_pos hline] at h
    cases hfit : fitsLiteral s.toList <;> simp [fitting, hfit] at h
  · rw [if_neg hline] at h
    cases hamb : isAmbiguous s with
    | true =>
      rw [hamb, if_pos rfl] at h
      cases hfit : fitsSingle s.toList <;> simp [fitting, hfit] at h
    | false =>
      rw [hamb, if_neg (by simp)] at h
      cases hfit : fitsPlain s.toList with
      | true => exact ⟨plain_of_fitsPlain hfit, rfl⟩
      | false => cases hsingle : fitsSingle s.toList <;> simp [fitting, hfit, hsingle] at h

theorem toList_ne_nil_of_plain (h : ofText s = .plain) : s.toList ≠ [] := by
  intro hnil
  obtain rfl : s = "" := by simpa using hnil
  exact absurd (of_ofText_plain h).2 (by decide)

theorem of_ofText_single (h : ofText s = .single) : FitsSingle s.toList ∧ '\n' ∉ s.toList := by
  unfold ofText wanted at h
  by_cases hline : s.toList.contains '\n' = true
  · rw [if_pos hline] at h
    cases hfit : fitsLiteral s.toList <;> simp [fitting, hfit] at h
  · rw [if_neg hline] at h
    refine ⟨single_of_fitsSingle ?_, by simpa using hline⟩
    cases hfit : fitsSingle s.toList with
    | true => rfl
    | false =>
      cases hamb : isAmbiguous s <;> simp [fitting, hfit, hamb, fitsPlain] at h

theorem of_ofText_literal (h : ofText s = .literal) :
    Unescaped s.toList ∧ s.toList ≠ [] ∧ '\n' ∈ s.toList := by
  unfold ofText wanted at h
  by_cases hline : s.toList.contains '\n' = true
  · rw [if_pos hline] at h
    cases hfit : fitsLiteral s.toList with
    | true =>
      obtain ⟨hu, hn⟩ := unescaped_of_fitsLiteral hfit
      exact ⟨hu, hn, by simpa using hline⟩
    | false => simp [fitting, hfit] at h
  · rw [if_neg hline] at h
    cases hamb : isAmbiguous s <;> cases hsingle : fitsSingle s.toList <;>
      cases hplain : fitsPlain s.toList <;> simp [fitting, hsingle, hamb, hplain] at h

/-- An escape takes a backslash, a letter and up to four digits; the characters beyond those are
printable. -/
theorem length_escaped_le (c : Char) : (escaped c).length ≤ 6 := by
  have hlen : ∀ width, (hexDigits upperHex width c.toNat).length = width := by simp [hexDigits]
  by_cases hplain : (isPrintable c && !isBreak c && decide (c ≠ '"') && decide (c ≠ '\\')) = true
  · rw [escaped, if_pos hplain, List.length_singleton]
    omega
  · rw [escaped, if_neg hplain]
    rcases escapeLetter? c with _ | letter
    · by_cases hhigh : 0xffff < c.toNat
      · have hne : ∀ d : Char, d.toNat ≤ 0xffff → c ≠ d := by
          rintro d hd rfl
          omega
        have hprint : isPrintable c = true := by
          have : 0x10000 ≤ c.toNat := by omega
          simp [isPrintable, this]
        have hbreak : isBreak c = false := by
          simp [isBreak, hne]
        simp [hprint, hbreak, hne] at hplain
      · simp only []
        split
        · simp [hlen]
        · rw [if_pos (by omega)]
          simp [hlen]
    · simp

theorem length_le_utf8ByteSize (cs : List Char) : cs.length ≤ (String.ofList cs).utf8ByteSize := by
  induction cs with
  | nil => exact Nat.zero_le _
  | cons c rest ih =>
    have hpos := c.utf8Size_pos
    rw [String.ofList_cons, String.utf8ByteSize_append, String.utf8ByteSize_singleton,
      List.length_cons]
    omega

theorem length_flatMap_escaped_le (cs : List Char) :
    (cs.flatMap escaped).length ≤ 6 * cs.length := by
  induction cs with
  | nil => simp
  | cons c rest ih =>
    have hc := length_escaped_le c
    rw [List.flatMap_cons, List.length_append, List.length_cons]
    omega

theorem length_singleBody_le {cs : List Char} (h : ∀ c ∈ cs, isBreak c = false) (indent : Nat) :
    (singleBody indent false cs).length ≤ 2 * cs.length := by
  induction cs with
  | nil => simp [singleBody]
  | cons c rest ih =>
    obtain ⟨hc, hrest⟩ := List.forall_mem_cons.mp h
    have hle := ih hrest
    rw [singleBody, if_neg (by simp [hc])]
    by_cases hquote : c = '\''
    · simp [hquote]
      omega
    · simp [hquote]
      omega

/-- A name that may be a key is short enough before its colon in every style. -/
theorem length_writeKey_le (h : isSimpleKey s = true) : (writeKey s).length ≤ 1024 := by
  simp only [isSimpleKey, Bool.and_eq_true, decide_eq_true_eq, Bool.not_eq_true', hasBreak,
    List.any_eq_false] at h
  have hlen : s.toList.length ≤ 128 := by
    have hle := length_le_utf8ByteSize s.toList
    rw [String.ofList_toList] at hle
    omega
  have hdouble : (doubleQuoted s.toList).length ≤ 1024 := by
    have hle := length_flatMap_escaped_le s.toList
    simp only [doubleQuoted, List.length_cons, List.length_append, List.length_nil]
    omega
  have hsingle : (singleQuoted 0 s.toList).length ≤ 1024 := by
    have hle := length_singleBody_le (fun c hc => by simpa using h.2 c hc) 0
    simp only [singleQuoted, List.length_cons, List.length_append, List.length_nil]
    omega
  unfold writeKey
  split
  · omega
  · exact hsingle
  · exact hdouble

end ServiceMaps.Yaml.Style
