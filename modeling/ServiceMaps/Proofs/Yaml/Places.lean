import ServiceMaps.Yaml.Writing
import ServiceMaps.Yaml.Stream

/-!
Where the characters of a written text stand. Such a text has no carriage return and no next-line
character, so that every character keeps its own place in the source. What follows a value starts
on a new line, perhaps after a further line feed, with a token at a known column or not at all.
-/
namespace ServiceMaps.Yaml

/-- The characters with their places, each standing for itself. -/
def spread : Nat → Nat → List Char → Source
  | _, _, [] => []
  | line, column, c :: rest =>
    ⟨c, line, column⟩ ::
      if isBreak c then spread (line + 1) 0 rest else spread line (column + 1) rest

@[simp] theorem spread_nil (line column : Nat) : spread line column [] = [] := rfl

theorem spread_break {c : Char} (h : isBreak c = true) (line column : Nat) (rest : List Char) :
    spread line column (c :: rest) = ⟨c, line, column⟩ :: spread (line + 1) 0 rest := by
  rw [spread, if_pos h]

theorem spread_text {c : Char} (h : isBreak c = false) (line column : Nat) (rest : List Char) :
    spread line column (c :: rest) = ⟨c, line, column⟩ :: spread line (column + 1) rest := by
  rw [spread, if_neg (by simp [h])]

@[simp] theorem length_spread (line column : Nat) (cs : List Char) :
    (spread line column cs).length = cs.length := by
  induction cs generalizing line column with
  | nil => rfl
  | cons c rest ih => cases h : isBreak c <;> simp [spread, h, ih]

theorem place_eq_spread {cs : List Char} (h : ∀ c ∈ cs, c ≠ '\r' ∧ c ≠ '\u0085')
    (line column : Nat) : place line column cs = spread line column cs := by
  induction cs generalizing line column with
  | nil => rfl
  | cons c rest ih =>
    obtain ⟨⟨hr, hn⟩, hrest⟩ := List.forall_mem_cons.mp h
    have hplace : place line column (c :: rest) =
        if isBreak c then ⟨if c = '\r' || c = '\u0085' then '\n' else c, line, column⟩
            :: place (line + 1) 0 rest
          else ⟨c, line, column⟩ :: place line (column + 1) rest := by
      rw [place]
      rintro more rfl
      exact absurd rfl hr
    rw [hplace]
    cases hb : isBreak c with
    | true => simp [spread_break hb, ih hrest, hr, hn]
    | false => simp [spread_text hb, ih hrest]

/-- A character that is neither passed over between tokens nor starts a comment. -/
def StartsToken (c : Char) : Prop :=
  isBreak c = false ∧ isBlank c = false ∧ c ≠ '#' ∧ c ≠ '\ufeff'

instance (c : Char) : Decidable (StartsToken c) :=
  inferInstanceAs (Decidable (_ ∧ _))

/-- From the start of a line on, the next token stands at a column up to `limit`, if there is one. -/
def NextWithin (limit : Nat) (rest : List Char) : Prop :=
  rest = [] ∨ ∃ column c more, rest = Style.spaces column ++ c :: more ∧ column ≤ limit ∧
    StartsToken c

theorem NextWithin.mono {limit more : Nat} {rest : List Char} (h : NextWithin limit rest)
    (hl : limit ≤ more) : NextWithin more rest := by
  rcases h with rfl | ⟨column, c, cs, rfl, hc, hs⟩
  · exact .inl rfl
  · exact .inr ⟨column, c, cs, rfl, Nat.le_trans hc hl, hs⟩

/-- The source from the next token of a line on. -/
def land (line : Nat) (rest : List Char) : Source :=
  (spread line 0 rest).dropWhile (·.char = ' ')

@[simp] theorem land_nil (line : Nat) : land line [] = [] := rfl

theorem StartsToken.ne_space {c : Char} (h : StartsToken c) : c ≠ ' ' := by
  rintro rfl
  exact absurd h.2.1 (by decide)

theorem dropWhile_spread_spaces (line column n : Nat) (cs : List Char) :
    (spread line column (Style.spaces n ++ cs)).dropWhile (·.char = ' ') =
      (spread line (column + n) cs).dropWhile (·.char = ' ') := by
  induction n generalizing column with
  | zero => rfl
  | succ n ih =>
    have hspace : isBreak ' ' = false := by decide
    rw [Style.spaces, List.replicate_succ, List.cons_append, spread_text hspace]
    rw [List.dropWhile_cons_of_pos (by simp), ← Style.spaces, ih, Nat.add_assoc, Nat.add_comm 1]

theorem land_spaces (line n : Nat) {c : Char} (h : StartsToken c) (cs : List Char) :
    land line (Style.spaces n ++ c :: cs) = spread line n (c :: cs) := by
  rw [land, dropWhile_spread_spaces, Nat.zero_add, spread_text h.1,
    List.dropWhile_cons_of_neg (by simpa using h.ne_space)]

theorem length_land_le (line : Nat) (rest : List Char) : (land line rest).length ≤ rest.length := by
  have h := (List.dropWhile_sublist (fun p : Placed => decide (p.char = ' '))
    (l := spread line 0 rest)).length_le
  rwa [length_spread] at h

/-- What may stand between the end of a value's last line and the next token's line: nothing, or
one line feed. -/
def Ending (extra : List Char) : Prop := extra = [] ∨ extra = ['\n']

end ServiceMaps.Yaml
