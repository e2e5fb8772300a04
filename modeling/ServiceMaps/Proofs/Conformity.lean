import ServiceMaps.Document.Inspection

/-!
What it means that a value has a form, said without a report: a record has every field that it
must have and no field of a wrong form, a list has no item of a wrong form. Inspection finds
no flaw exactly in the values that have the form, whatever the path it starts from.
-/
namespace ServiceMaps

namespace Form

mutual

/-- The value has the form. -/
def Conforms : Form → Value → Prop
  | .string, v => ∃ s, v = .str s
  | .integer least greatest, v => ∃ n, integer? v = some n ∧ least ≤ n ∧ n ≤ greatest
  | .number, v => v.isNumber = true
  | .boolean, v => ∃ b, v = .bool b
  | .constant text, v => v = .str text
  | .choice texts, v => ∃ s ∈ texts, v = .str s
  | .list item, v => ∃ items, v = .arr items ∧ ∀ w ∈ items, Conforms item w
  | .record fields, v => ∃ entries, v = .obj entries ∧ MembersConform fields entries

/-- Every field of a table is there if it must be, and has its form unless it is null. -/
def MembersConform : List (Member Form) → Fields → Prop
  | [], _ => True
  | ⟨name, required, form⟩ :: rest, entries =>
    (match entries.get? name with
      | none | some .null => required = false
      | some v => Conforms form v) ∧ MembersConform rest entries

end

mutual

/-- Inspection finds nothing exactly where the form is kept. -/
theorem flaws_eq_nil_iff : ∀ (form : Form) (path : Path) (v : Value),
    flaws path form v = [] ↔ form.Conforms v
  | .string, path, v => by cases v <;> simp [flaws, Conforms]
  | .integer least greatest, path, v => by
    simp only [flaws, Conforms]
    cases integer? v with
    | none => simp
    | some n =>
      by_cases hl : n < least
      · simp [hl, Int.not_le.mpr hl]
      · by_cases hg : greatest < n
        · simp [hl, hg]
        · simp [hl, hg]
          omega
  | .number, path, v => by simp [flaws, Conforms]
  | .boolean, path, v => by cases v <;> simp [flaws, Conforms]
  | .constant text, path, v => by simp [flaws, Conforms]
  | .choice texts, path, v => by cases v <;> simp [flaws, Conforms]
  | .list item, path, v => by
    cases v with
    | arr items =>
      have hitem : ∀ i w, flaws (path ++ [.index i]) item w = [] ↔ item.Conforms w :=
        fun i w => flaws_eq_nil_iff item _ w
      simp only [flaws, Conforms, List.flatMap_eq_nil_iff, hitem, Prod.forall, Value.arr.injEq,
        exists_eq_left']
      constructor
      · intro h w hw
        obtain ⟨i, hi, rfl⟩ := List.getElem_of_mem hw
        exact h _ i (List.mem_zipIdx_iff_getElem?.mpr (by simp [hi]))
      · intro h w i hw
        exact h w (List.mem_of_getElem? (List.mem_zipIdx_iff_getElem?.mp hw))
    | _ => simp [flaws, Conforms]
  | .record fields, path, v => by
    cases v with
    | obj entries => simp [flaws, Conforms, memberFlaws_eq_nil_iff fields path entries]
    | _ => simp [flaws, Conforms]

theorem memberFlaws_eq_nil_iff : ∀ (fields : List (Member Form)) (path : Path) (entries : Fields),
    memberFlaws path fields entries = [] ↔ MembersConform fields entries
  | [], path, entries => by simp [memberFlaws, MembersConform]
  | ⟨name, required, form⟩ :: rest, path, entries => by
    rw [memberFlaws, MembersConform, List.append_eq_nil_iff,
      memberFlaws_eq_nil_iff rest path entries]
    refine and_congr_left fun _ => ?_
    rcases hg : entries.get? name with _ | v
    · cases required <;> simp
    · cases v with
      | null => cases required <;> simp
      | _ => exact flaws_eq_nil_iff form _ _

end

theorem not_conforms_null (form : Form) : ¬ form.Conforms .null := by
  cases form <;> simp [Conforms, integer?, Value.isNumber]

/-- A field that must be there is there, with its form. -/
theorem membersConform_required {name : String} {form : Form} {rest : List (Member Form)}
    {entries : Fields} : MembersConform (required name form :: rest) entries ↔
      (∃ v, entries.get? name = some v ∧ form.Conforms v) ∧ MembersConform rest entries := by
  rw [required, MembersConform]
  refine and_congr_left fun _ => ?_
  rcases entries.get? name with _ | v
  · simp
  · cases v <;> simp [not_conforms_null]

/-- A field that may be left out is absent, null or of its form. -/
theorem membersConform_optional {name : String} {form : Form} {rest : List (Member Form)}
    {entries : Fields} : MembersConform (optional name form :: rest) entries ↔
      (entries.get? name = none ∨ entries.get? name = some .null ∨
        ∃ v, entries.get? name = some v ∧ form.Conforms v) ∧ MembersConform rest entries := by
  rw [optional, MembersConform]
  refine and_congr_left fun _ => ?_
  rcases entries.get? name with _ | v
  · simp
  · cases v <;> simp [not_conforms_null]

theorem membersConform_append {members more : List (Member Form)} {entries : Fields} :
    MembersConform (members ++ more) entries ↔
      MembersConform members entries ∧ MembersConform more entries := by
  induction members with
  | nil => simp [MembersConform]
  | cons member rest ih => rw [List.cons_append, MembersConform, MembersConform, ih, and_assoc]

/-- A field that a table wants is there, with its form. -/
theorem conforms_of_mem {name : String} {form : Form} {members : List (Member Form)}
    {entries : Fields} (hm : required name form ∈ members) (h : MembersConform members entries) :
    ∃ v, entries.get? name = some v ∧ form.Conforms v := by
  induction members with
  | nil => simp at hm
  | cons member rest ih =>
    rcases List.mem_cons.mp hm with rfl | hm
    · exact (membersConform_required.mp h).1
    · exact ih hm h.2

end Form

theorem Settings.allows_iff {settings : Settings} (h : settings.allowedVersions ≠ [])
    {version : String} :
    settings.allows version = true ↔ version ∈ settings.allowedVersions := by
  simp [allows, h]

theorem Settings.not_allows_iff {settings : Settings} {version : String} :
    settings.allows version = false ↔
      settings.allowedVersions ≠ [] ∧ version ∉ settings.allowedVersions := by
  simp [allows]

/-- The version of a value, where it is a text, is allowed. -/
def VersionAllowed (settings : Settings) (v : Value) : Prop :=
  ∀ version, v.get? "version" = some (.str version) → settings.allows version = true

theorem versionFlaws_eq_nil_iff (settings : Settings) (v : Value) :
    versionFlaws settings v = [] ↔ VersionAllowed settings v := by
  unfold versionFlaws VersionAllowed
  rcases v.get? "version" with _ | w
  · simp
  · cases w <;> simp

/-- A value is valid for a kind if it has the form of that kind and an allowed version. -/
theorem inspect_valid_iff (settings : Settings) (k : Kind) (v : Value) :
    (inspect settings k v).valid = true ↔
      (Form.record (Form.document k)).Conforms v ∧ VersionAllowed settings v := by
  simp only [Report.valid, inspect, List.isEmpty_iff, List.append_eq_nil_iff,
    Form.flaws_eq_nil_iff, versionFlaws_eq_nil_iff]

theorem namedKind_eq_ok_iff (v : Value) (k : Kind) :
    namedKind v = .ok k ↔ v.get? "kind" = some (.str k.text) := by
  unfold namedKind
  rcases hv : v.get? "kind" with _ | w
  · simp
  · cases w with
    | str s =>
      rcases hk : Kind.ofText? s with _ | l
      · have hne : s ≠ k.text := fun h => by simp [h] at hk
        simp [hk, hne]
      · have hs := Kind.text_of_ofText? hk
        have hl : l = k ↔ s = k.text := hs ▸ ⟨congrArg Kind.text, Kind.text_injective⟩
        simp [hk, hl]
    | _ => simp

/-- What is valid for a kind names that kind. -/
theorem namedKind_of_conforms {k : Kind} {v : Value}
    (h : (Form.record (Form.document k)).Conforms v) : namedKind v = .ok k := by
  obtain ⟨entries, rfl, hm⟩ := h
  obtain ⟨⟨w, hw, rfl⟩, -⟩ := Form.membersConform_required.mp hm
  exact (namedKind_eq_ok_iff _ _).mpr hw

end ServiceMaps
