import ServiceMaps.Proofs.Identifiers

/-!
The text of an identifier and its parts. Taking a text apart at separators and putting parts
together with separators between them undo each other, as long as no part has a separator in it. So
a text is read as an identifier exactly if it has two colons, and what is read has that text.
-/
namespace ServiceMaps

theorem partsAt_eq_splitOn (separator : Char) (cs : List Char) :
    partsAt separator cs = cs.splitOn separator := by
  induction cs with
  | nil => rfl
  | cons c rest ih =>
    have hne : rest.splitOn separator ≠ [] := List.splitOnP_ne_nil _ rest
    obtain ⟨part, parts, hparts⟩ := List.exists_cons_of_ne_nil hne
    have hcons : (c :: rest).splitOn separator = if c = separator then [] :: rest.splitOn separator
        else (rest.splitOn separator).modifyHead (List.cons c) := by
      simpa [List.splitOn] using List.splitOnP_cons_eq_if_modifyHead (p := (· == separator)) c rest
    rw [partsAt, ih, hcons, hparts, List.modifyHead_cons]

/-- Putting the parts of a text together gives the text. -/
theorem intercalate_partsAt (separator : Char) (cs : List Char) :
    [separator].intercalate (partsAt separator cs) = cs := by
  rw [partsAt_eq_splitOn, List.intercalate_splitOn]

/-- Parts without separators are found again when they have been put together. -/
theorem partsAt_intercalate {separator : Char} {parts : List (List Char)} (hne : parts ≠ [])
    (h : ∀ part ∈ parts, separator ∉ part) :
    partsAt separator ([separator].intercalate parts) = parts := by
  rw [partsAt_eq_splitOn, List.splitOn_intercalate separator h hne]

theorem length_partsAt (separator : Char) (cs : List Char) :
    (partsAt separator cs).length = cs.count separator + 1 := by
  fun_induction partsAt separator cs with
  | case1 => rfl
  | case2 rest ih => simp [ih]
  | case3 c rest hc hparts ih => simp [hparts] at ih
  | case4 c rest hc part parts hparts ih =>
    rw [hparts] at ih
    rw [List.count_cons_of_ne hc, ← ih, List.length_cons, List.length_cons]

/-- No part has a separator in it. -/
theorem not_mem_of_mem_partsAt {separator : Char} {cs part : List Char}
    (h : part ∈ partsAt separator cs) : separator ∉ part := by
  fun_induction partsAt separator cs generalizing part with
  | case1 =>
    obtain rfl := List.mem_singleton.mp h
    exact List.not_mem_nil
  | case2 rest ih =>
    rcases List.mem_cons.mp h with rfl | h
    · exact List.not_mem_nil
    · exact ih h
  | case3 c rest hc hparts ih =>
    obtain rfl := List.mem_singleton.mp h
    simpa using Ne.symm hc
  | case4 c rest hc first parts hparts ih =>
    rcases List.mem_cons.mp h with rfl | h
    · have hfirst : separator ∉ first := ih (hparts ▸ List.mem_cons_self)
      exact fun hmem => (List.mem_cons.mp hmem).elim (Ne.symm hc) hfirst
    · exact ih (hparts ▸ List.mem_cons_of_mem first h)

namespace Identifier

/-- None of the three parts has a colon in it. -/
def Separable (i : Identifier) : Prop :=
  ':' ∉ i.kind.toList ∧ ':' ∉ i.entity.toList ∧ ':' ∉ i.unique.toList

instance (i : Identifier) : Decidable i.Separable := inferInstanceAs (Decidable (_ ∧ _ ∧ _))

/-- The parts of an identifier. -/
def parts (i : Identifier) : List (List Char) :=
  [i.kind.toList, i.entity.toList, i.unique.toList]

theorem separable_iff (i : Identifier) : i.Separable ↔ ∀ part ∈ i.parts, ':' ∉ part := by
  simp [Separable, parts]

theorem toList_text (i : Identifier) : i.text.toList = [':'].intercalate i.parts := by
  simp [text, parts, List.intercalate_cons_cons]

theorem parse?_eq_some_iff_partsAt (s : String) (i : Identifier) :
    parse? s = some i ↔ partsAt ':' s.toList = i.parts := by
  unfold parse?
  split
  · rename_i kind entity unique hparts
    obtain ⟨kind', entity', unique'⟩ := i
    simp [hparts, parts, ← String.toList_inj]
  · rename_i hparts
    exact iff_of_false nofun fun h => hparts _ _ _ h

/-- What is read from a text are its parts, and they spell the text. -/
theorem parse?_eq_some_iff (s : String) (i : Identifier) :
    parse? s = some i ↔ i.Separable ∧ i.text = s := by
  rw [parse?_eq_some_iff_partsAt, separable_iff]
  constructor
  · intro h
    refine ⟨fun part hpart => not_mem_of_mem_partsAt (h ▸ hpart), ?_⟩
    rw [← String.toList_inj, toList_text, ← h, intercalate_partsAt]
  · rintro ⟨hi, rfl⟩
    rw [toList_text, partsAt_intercalate (by simp [parts]) hi]

theorem exists_parse?_iff (s : String) :
    (∃ i, parse? s = some i) ↔ s.toList.count ':' = 2 := by
  have hlength := length_partsAt ':' s.toList
  constructor
  · rintro ⟨i, hi⟩
    rw [(parse?_eq_some_iff_partsAt s i).mp hi] at hlength
    exact (Nat.succ.inj hlength).symm
  · intro hcount
    rw [hcount] at hlength
    obtain ⟨kind, entity, unique, hparts⟩ := List.length_eq_three.mp hlength
    refine ⟨⟨String.ofList kind, String.ofList entity, String.ofList unique⟩, ?_⟩
    rw [parse?_eq_some_iff_partsAt, hparts]
    simp [parts]

/-- An identifier is read back from its text exactly if none of its parts has a colon. -/
theorem parse?_text_iff (i : Identifier) : parse? i.text = some i ↔ i.Separable := by
  rw [parse?_eq_some_iff, and_iff_left rfl]

/-- The number of a drawn identifier has no colon. -/
theorem separable_numbered (kind entity label : String) (n : Nat) :
    (mk kind entity (label ++ "-" ++ toString n)).Separable ↔
      ':' ∉ kind.toList ∧ ':' ∉ entity.toList ∧ ':' ∉ label.toList := by
  have hdigits : ':' ∉ Nat.toDigits 10 n := IdSequence.not_mem_digits (by decide) n
  simp [Separable, hdigits]

/-- Reading an identifier from a text is the inverse of writing it. A text is read exactly if it has
two colons, and then the parts read have no colon and spell the text. Any three texts with colons
between them are read as themselves exactly if none of them has a colon, and what a sequence draws
is read as its kind, its type and its numbered label exactly if kind, type and label have none. -/
theorem parse?_inverts_text :
    (∀ s, (∃ i, parse? s = some i) ↔ s.toList.count ':' = 2) ∧
    (∀ s i, parse? s = some i ↔ i.Separable ∧ i.text = s) ∧
    (∀ kind entity unique, parse? (kind ++ ":" ++ entity ++ ":" ++ unique) =
        some ⟨kind, entity, unique⟩ ↔
      ':' ∉ kind.toList ∧ ':' ∉ entity.toList ∧ ':' ∉ unique.toList) ∧
    (∀ kind entity (ids : IdSequence), parse? (ids.draw kind entity).1 =
        some ⟨kind, entity, ids.label ++ "-" ++ toString ids.next.toNat⟩ ↔
      ':' ∉ kind.toList ∧ ':' ∉ entity.toList ∧ ':' ∉ ids.label.toList) := by
  refine ⟨exists_parse?_iff, parse?_eq_some_iff, fun kind entity unique => ?_,
    fun kind entity ids => ?_⟩
  · exact parse?_text_iff ⟨kind, entity, unique⟩
  · exact (parse?_text_iff _).trans (separable_numbered kind entity ids.label ids.next.toNat)

/-- Empty parts are parts too. -/
example : parse? "::" = some ⟨"", "", ""⟩ := by decide

end Identifier

end ServiceMaps
