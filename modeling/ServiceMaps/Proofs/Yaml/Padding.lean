import ServiceMaps.Proofs.Yaml.Steps

/-!
What a written value is read as where a line feed stands behind it. Only the text at its end may take
the line feed in, so that the value comes back with the same names and numbers, and unchanged if that
text does.
-/
namespace ServiceMaps.Yaml.Writing

open Layout (reread reread_nil)

mutual

/-- The value that is read where `extra` stands behind the written one: only the last text may
take it in. -/
def padded (extra : List Char) : Value → Value
  | .null => .null
  | .bool b => .bool b
  | .int n => .int n
  | .float x => .float x
  | .str s => .str (reread extra s)
  | .arr items => .arr (paddedItems extra items)
  | .obj fields => .obj (paddedFields extra fields)

def paddedItems (extra : List Char) : List Value → List Value
  | [] => []
  | v :: rest => if rest.isEmpty then [padded extra v] else v :: paddedItems extra rest

def paddedFields (extra : List Char) : List (String × Value) → List (String × Value)
  | [] => []
  | (name, v) :: rest =>
    if rest.isEmpty then [(name, padded extra v)] else (name, v) :: paddedFields extra rest

end

@[simp] theorem isEmpty_paddedItems (extra : List Char) (items : List Value) :
    (paddedItems extra items).isEmpty = items.isEmpty := by
  cases items with
  | nil => rfl
  | cons v rest => cases rest <;> rfl

@[simp] theorem isEmpty_paddedFields (extra : List Char) (fields : List (String × Value)) :
    (paddedFields extra fields).isEmpty = fields.isEmpty := by
  cases fields with
  | nil => rfl
  | cons field rest => cases rest <;> rfl

mutual

/-- The text at the end of a value, if it ends in one. -/
def lastText? : Value → Option String
  | .str s => some s
  | .arr items => lastItemText? items
  | .obj fields => lastFieldText? fields
  | .null | .bool _ | .int _ | .float _ => none

def lastItemText? : List Value → Option String
  | [] => none
  | v :: rest => if rest.isEmpty then lastText? v else lastItemText? rest

def lastFieldText? : List (String × Value) → Option String
  | [] => none
  | (_, v) :: rest => if rest.isEmpty then lastText? v else lastFieldText? rest

end

mutual

/-- A value stays as it is if its last text does. -/
theorem padded_eq {extra : List Char} : ∀ {v : Value},
    (∀ s ∈ lastText? v, reread extra s = s) → padded extra v = v
  | .null, _ | .bool _, _ | .int _, _ | .float _, _ => rfl
  | .str s, h => by rw [padded, h s rfl]
  | .arr items, h => by rw [padded, paddedItems_eq h]
  | .obj fields, h => by rw [padded, paddedFields_eq h]

theorem paddedItems_eq {extra : List Char} : ∀ {items : List Value},
    (∀ s ∈ lastItemText? items, reread extra s = s) → paddedItems extra items = items
  | [], _ => rfl
  | [v], h => by
    have hv : padded extra v = v := padded_eq h
    simp [paddedItems, hv]
  | v :: w :: rest, h => by
    have hrest : paddedItems extra (w :: rest) = w :: rest := paddedItems_eq h
    rw [paddedItems, hrest]
    rfl

theorem paddedFields_eq {extra : List Char} : ∀ {fields : List (String × Value)},
    (∀ s ∈ lastFieldText? fields, reread extra s = s) → paddedFields extra fields = fields
  | [], _ => rfl
  | [(name, v)], h => by
    have hv : padded extra v = v := padded_eq h
    simp [paddedFields, hv]
  | (name, v) :: field :: rest, h => by
    have hrest : paddedFields extra (field :: rest) = field :: rest := paddedFields_eq h
    rw [paddedFields, hrest]
    rfl

end

theorem padded_nil (v : Value) : padded [] v = v := padded_eq fun s _ => reread_nil s

theorem names_paddedFields (extra : List Char) (fields : List (String × Value)) :
    (paddedFields extra fields).map (·.1) = fields.map (·.1) := by
  induction fields with
  | nil => rfl
  | cons field rest ih =>
    rw [paddedFields]
    split
    · obtain rfl : rest = [] := by simp_all
      rfl
    · rw [List.map_cons, List.map_cons, ih]

variable {r : String → String → Prop}

mutual

theorem sound_padded (extra : List Char) : ∀ {v : Value}, v.Sound r → (padded extra v).Sound r
  | .null, h | .bool _, h | .int _, h | .float _, h => h
  | .str _, _ => .str _
  | .arr _, .arr h => .arr (sound_paddedItems extra h)
  | .obj fields, .obj hn h => by
    refine .obj ?_ (sound_paddedFields extra h)
    rwa [names_paddedFields]

theorem sound_paddedItems (extra : List Char) : ∀ {items : List Value}, (∀ v ∈ items, v.Sound r) →
    ∀ v ∈ paddedItems extra items, v.Sound r
  | [], _ => by simp [paddedItems]
  | v :: rest, h => by
    obtain ⟨hv, hrest⟩ := List.forall_mem_cons.mp h
    rw [paddedItems]
    split
    · exact List.forall_mem_singleton.mpr (sound_padded extra hv)
    · exact List.forall_mem_cons.mpr ⟨hv, sound_paddedItems extra hrest⟩

theorem sound_paddedFields (extra : List Char) : ∀ {fields : List (String × Value)},
    (∀ field ∈ fields, field.2.Sound r) → ∀ field ∈ paddedFields extra fields, field.2.Sound r
  | [], _ => by simp [paddedFields]
  | (name, v) :: rest, h => by
    obtain ⟨hv, hrest⟩ := List.forall_mem_cons.mp h
    rw [paddedFields]
    split
    · exact List.forall_mem_singleton.mpr (sound_padded extra hv)
    · exact List.forall_mem_cons.mpr ⟨hv, sound_paddedFields extra hrest⟩

end

end ServiceMaps.Yaml.Writing
