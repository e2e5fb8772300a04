import ServiceMaps.Value.Basic
import Mathlib.Data.List.Induction
import Mathlib.Data.String.Basic

/-!
Fields and their places. Collecting entries keeps, for every name, the entry that came last, and
lists the names in strictly ascending order; two such lists with the same look-ups are the same
list. Arranging a value therefore changes none of its look-ups, and nothing at all in a value that
is arranged already.
-/
namespace ServiceMaps

namespace Fields

/-- The names stand in strictly ascending order. -/
def Ascending (fields : Fields) : Prop := fields.names.Pairwise (· < ·)

@[simp] theorem names_cons (entry : String × Value) (fields : Fields) :
    names (entry :: fields) = entry.1 :: names fields := rfl

@[simp] theorem ascending_nil : Ascending [] := List.Pairwise.nil

theorem ascending_cons {entry : String × Value} {fields : Fields} :
    Ascending (entry :: fields) ↔ (∀ name ∈ names fields, entry.1 < name) ∧ Ascending fields :=
  List.pairwise_cons

theorem get?_append (name : String) (fields more : Fields) :
    get? name (fields ++ more) = (get? name fields).or (get? name more) := by
  induction fields with
  | nil => simp
  | cons entry rest ih =>
    obtain ⟨key, v⟩ := entry
    by_cases h : key = name <;> simp [get?_cons, h, ih]

theorem get?_eq_none_iff {name : String} {fields : Fields} :
    get? name fields = none ↔ name ∉ fields.names := by
  induction fields with
  | nil => simp [names]
  | cons entry rest ih =>
    obtain ⟨key, v⟩ := entry
    by_cases h : key = name
    · simp [get?_cons, h]
    · have hn : name ≠ key := fun e => h e.symm
      simp [get?_cons, h, hn, ih]

theorem mem_of_get? {name : String} {v : Value} {fields : Fields}
    (h : get? name fields = some v) : (name, v) ∈ fields := by
  induction fields with
  | nil => simp at h
  | cons entry rest ih =>
    obtain ⟨key, w⟩ := entry
    by_cases hk : key = name
    · subst hk
      simp only [get?_cons, if_true, Option.some.injEq] at h
      simp [h]
    · simp only [get?_cons, hk, if_false] at h
      exact List.mem_cons_of_mem _ (ih h)

@[simp] theorem ofEntries_nil : ofEntries [] = [] := rfl

theorem ofEntries_concat (entries : List (String × Value)) (entry : String × Value) :
    ofEntries (entries ++ [entry]) = put entry.1 entry.2 (ofEntries entries) := by
  simp [ofEntries]

/-- Of the entries under one name the last is found. -/
theorem get?_ofEntries (name : String) (entries : List (String × Value)) :
    get? name (ofEntries entries) = get? name entries.reverse := by
  induction entries using List.reverseRecOn with
  | nil => simp
  | append_singleton entries entry ih =>
    obtain ⟨key, v⟩ := entry
    rw [ofEntries_concat, get?_put, ih, List.reverse_concat, get?_cons]

theorem mem_names_put {name other : String} {v : Value} {fields : Fields}
    (h : other ∈ names (put name v fields)) : other = name ∨ other ∈ names fields := by
  by_cases ho : other = name
  · exact .inl ho
  · refine .inr (by_contra fun hn => ?_)
    have hg := get?_put name other v fields
    rw [if_neg (Ne.symm ho), get?_eq_none_iff.mpr hn] at hg
    exact get?_eq_none_iff.mp hg h

theorem mem_of_mem_put {name : String} {v : Value} {fields : Fields} {entry : String × Value}
    (h : entry ∈ put name v fields) : entry = (name, v) ∨ entry ∈ fields := by
  induction fields with
  | nil => exact .inl (by simpa [put] using h)
  | cons first rest ih =>
    obtain ⟨key, w⟩ := first
    unfold put at h
    split at h
    · exact (List.mem_cons.mp h).imp_right (List.mem_cons_of_mem _)
    · split at h
      · exact List.mem_cons.mp h
      · rcases List.mem_cons.mp h with rfl | h
        · exact .inr (by simp)
        · exact (ih h).imp_right (List.mem_cons_of_mem _)

theorem mem_of_mem_ofEntries {entries : List (String × Value)} {entry : String × Value}
    (h : entry ∈ ofEntries entries) : entry ∈ entries := by
  induction entries using List.reverseRecOn with
  | nil => simp at h
  | append_singleton entries last ih =>
    rw [ofEntries_concat] at h
    rcases mem_of_mem_put h with rfl | h
    · simp
    · exact List.mem_append_left _ (ih h)

theorem ascending_put {fields : Fields} (h : Ascending fields) (name : String) (v : Value) :
    Ascending (put name v fields) := by
  induction fields with
  | nil => simp [put, ascending_cons, names]
  | cons entry rest ih =>
    obtain ⟨key, w⟩ := entry
    obtain ⟨hkey, hrest⟩ := ascending_cons.mp h
    by_cases he : name = key
    · subst he
      rw [put, if_pos rfl]
      exact ascending_cons.mpr ⟨hkey, hrest⟩
    · by_cases hl : name < key
      · simp only [put, he, hl, if_true, if_false]
        refine ascending_cons.mpr ⟨?_, h⟩
        intro other ho
        rcases List.mem_cons.mp ho with rfl | ho
        · exact hl
        · exact lt_trans hl (hkey other ho)
      · simp only [put, he, hl, if_false]
        refine ascending_cons.mpr ⟨?_, ih hrest⟩
        intro other ho
        rcases mem_names_put ho with rfl | ho
        · exact lt_of_le_of_ne (not_lt.mp hl) (Ne.symm he)
        · exact hkey other ho

theorem ascending_ofEntries (entries : List (String × Value)) : Ascending (ofEntries entries) := by
  induction entries using List.reverseRecOn with
  | nil => simp
  | append_singleton entries entry ih =>
    rw [ofEntries_concat]
    exact ascending_put ih _ _

/-- A name below all others is found at the front or not at all. -/
theorem get?_of_below {name : String} {fields : Fields} (h : ∀ other ∈ names fields, name < other) :
    get? name fields = none :=
  get?_eq_none_iff.mpr fun hn => lt_irrefl _ (h name hn)

/-- A first name that is found among ascending fields is not below their first name. -/
theorem not_lt_of_get?_cons {key key' : String} {v v' : Value} {rest rest' : Fields}
    (hrest' : ∀ other ∈ names rest', key' < other)
    (h : get? key ((key, v) :: rest) = get? key ((key', v') :: rest')) : ¬ key < key' := by
  intro hl
  have hnone : get? key rest' = none := get?_of_below fun other ho => lt_trans hl (hrest' other ho)
  rw [get?_cons, if_pos rfl, get?_cons, if_neg (ne_of_gt hl), hnone] at h
  exact Option.some_ne_none v h

/-- Ascending fields are known by their look-ups. -/
theorem Ascending.ext {fields more : Fields} (hf : Ascending fields) (hm : Ascending more)
    (h : ∀ name, get? name fields = get? name more) : fields = more := by
  induction fields generalizing more with
  | nil =>
    cases more with
    | nil => rfl
    | cons entry rest =>
      obtain ⟨key, v⟩ := entry
      simpa [get?_cons] using h key
  | cons entry rest ih =>
    obtain ⟨key, v⟩ := entry
    cases more with
    | nil => simpa [get?_cons] using h key
    | cons entry' rest' =>
      obtain ⟨key', v'⟩ := entry'
      obtain ⟨hkey, hrest⟩ := ascending_cons.mp hf
      obtain ⟨hkey', hrest'⟩ := ascending_cons.mp hm
      obtain rfl : key = key' := le_antisymm
        (not_lt.mp (not_lt_of_get?_cons hkey (h key').symm))
        (not_lt.mp (not_lt_of_get?_cons hkey' (h key)))
      obtain rfl : v = v' := by simpa [get?_cons] using h key
      congr 1
      refine ih hrest hrest' fun name => ?_
      by_cases hn : key = name
      · subst hn
        rw [get?_of_below hkey, get?_of_below hkey']
      · simpa [get?_cons, hn] using h name

/-- The names of ascending fields are all different, so that their order does not matter. -/
theorem Ascending.get?_reverse {fields : Fields} (h : Ascending fields) (name : String) :
    get? name fields.reverse = get? name fields := by
  induction fields with
  | nil => rfl
  | cons entry rest ih =>
    obtain ⟨key, v⟩ := entry
    obtain ⟨hkey, hrest⟩ := ascending_cons.mp h
    rw [List.reverse_cons, get?_append, ih hrest]
    by_cases hk : key = name
    · subst hk
      simp [get?_cons, get?_of_below hkey]
    · simp [get?_cons, hk]

/-- Every entry of ascending fields is found under its name. -/
theorem Ascending.get?_of_mem {fields : Fields} (h : Ascending fields) {entry : String × Value}
    (hm : entry ∈ fields) : get? entry.1 fields = some entry.2 := by
  induction fields with
  | nil => simp at hm
  | cons first rest ih =>
    obtain ⟨key, v⟩ := first
    obtain ⟨hkey, hrest⟩ := ascending_cons.mp h
    rcases List.mem_cons.mp hm with rfl | hm
    · simp [get?_cons]
    · have hne : key ≠ entry.1 := ne_of_lt (hkey _ (List.mem_map_of_mem hm))
      simpa [get?_cons, hne] using ih hrest hm

theorem Ascending.ofEntries_eq {fields : Fields} (h : Ascending fields) :
    ofEntries fields = fields :=
  (ascending_ofEntries fields).ext h fun name => by rw [get?_ofEntries, h.get?_reverse]

theorem get?_excluding (known : List String) (name : String) (fields : Fields) :
    get? name (fields.excluding known) = if name ∈ known then none else get? name fields := by
  induction fields with
  | nil => simp [excluding]
  | cons entry rest ih =>
    obtain ⟨key, v⟩ := entry
    simp only [excluding, List.contains_eq_mem, List.filter_cons] at ih ⊢
    by_cases hk : key ∈ known
    · have he : name ∉ known → key ≠ name := fun hn e => hn (e ▸ hk)
      by_cases hn : name ∈ known
      · simp only [hk, hn, ih, decide_true, Bool.not_true, Bool.false_eq_true, if_true, if_false]
      · simp [hk, hn, ih, get?_cons, he hn]
    · by_cases he : key = name
      · subst he
        simp [hk, get?_cons]
      · simp [hk, he, ih, get?_cons]

theorem Ascending.excluding {fields : Fields} (h : Ascending fields) (known : List String) :
    Ascending (fields.excluding known) :=
  h.sublist (List.filter_sublist.map _)

theorem mem_excluding {known : List String} {fields : Fields} {entry : String × Value} :
    entry ∈ fields.excluding known ↔ entry ∈ fields ∧ entry.1 ∉ known := by
  simp [Fields.excluding]

theorem excluding_put_of_mem {name : String} {known : List String} (h : name ∈ known) (v : Value)
    (fields : Fields) : (fields.put name v).excluding known = fields.excluding known := by
  induction fields with
  | nil => simp [put, excluding, h]
  | cons entry rest ih =>
    obtain ⟨key, w⟩ := entry
    rw [put]
    split_ifs with he hl
    · subst he
      simp [excluding, h]
    · simp [excluding, h]
    · rw [excluding, List.filter_cons]
      rw [excluding, excluding] at ih
      rw [ih, excluding, List.filter_cons]

theorem excluding_excluding {few known : List String} (h : few ⊆ known) (fields : Fields) :
    (fields.excluding few).excluding known = fields.excluding known := by
  rw [excluding, excluding, excluding, List.filter_filter]
  refine List.filter_congr fun entry _ => ?_
  by_cases hk : entry.1 ∈ few
  · simp [hk, h hk]
  · simp [hk]

/-- A field that stays may be put before or after others are left out. -/
theorem Ascending.excluding_put {fields : Fields} (hf : Ascending fields) {name : String}
    {known : List String} (h : name ∉ known) (v : Value) :
    (fields.put name v).excluding known = (fields.excluding known).put name v := by
  refine ((ascending_put hf name v).excluding known).ext
    (ascending_put (hf.excluding known) name v) fun other => ?_
  simp only [get?_excluding, get?_put]
  by_cases he : name = other
  · subst he
    simp [h]
  · simp [he]

end Fields

namespace Value

open Fields

theorem get?_arrangedFields (name : String) (fields : Fields) :
    Fields.get? name (arrangedFields fields) = (Fields.get? name fields).map arranged := by
  induction fields with
  | nil => rfl
  | cons entry rest ih =>
    obtain ⟨key, v⟩ := entry
    by_cases h : key = name <;> simp [arrangedFields, Fields.get?_cons, h, ih]

theorem arrangedFields_append (fields more : Fields) :
    arrangedFields (fields ++ more) = arrangedFields fields ++ arrangedFields more := by
  induction fields with
  | nil => rfl
  | cons entry rest ih => simp [arrangedFields, ih]

theorem arrangedFields_reverse (fields : Fields) :
    arrangedFields fields.reverse = (arrangedFields fields).reverse := by
  induction fields with
  | nil => rfl
  | cons entry rest ih => simp [arrangedFields, arrangedFields_append, ih]

theorem arrangedItems_eq_map (items : List Value) : arrangedItems items = items.map arranged := by
  induction items with
  | nil => rfl
  | cons v rest ih => simp [arrangedItems, ih]

@[simp] theorem arranged_arr (items : List Value) :
    arranged (.arr items) = .arr (items.map arranged) := by
  rw [arranged, arrangedItems_eq_map]

/-- In an arranged object the last field of a name is found. -/
theorem get?_arranged_obj (name : String) (fields : Fields) :
    (arranged (.obj fields)).get? name = (Fields.get? name fields.reverse).map arranged := by
  rw [arranged, Value.get?, get?_ofEntries, ← arrangedFields_reverse, get?_arrangedFields]

theorem arrangedFields_eq_self {fields : Fields}
    (h : ∀ entry ∈ fields, arranged entry.2 = entry.2) :
    arrangedFields fields = fields := by
  induction fields with
  | nil => rfl
  | cons entry rest ih =>
    rw [arrangedFields, h entry (by simp), ih fun e he => h e (List.mem_cons_of_mem _ he)]

theorem Sound.mono {r r' : String → String → Prop} (hr : ∀ a b, r a b → r' a b) {v : Value}
    (h : Sound r v) : Sound r' v := by
  induction h with
  | null => exact .null
  | bool b => exact .bool b
  | int hl hg => exact .int hl hg
  | float hf hc => exact .float hf hc
  | str s => exact .str s
  | arr _ ih => exact .arr ih
  | obj hn _ ih => exact .obj (hn.imp (hr _ _)) ih

theorem mem_arrangedFields {fields : Fields} {entry : String × Value}
    (h : entry ∈ arrangedFields fields) :
    ∃ field ∈ fields, entry = (field.1, arranged field.2) := by
  induction fields with
  | nil => simp [arrangedFields] at h
  | cons field rest ih =>
    rcases List.mem_cons.mp h with rfl | h
    · exact ⟨field, by simp, rfl⟩
    · obtain ⟨other, ho, he⟩ := ih h
      exact ⟨other, List.mem_cons_of_mem _ ho, he⟩

/-- Putting the fields of a sound value in their places makes it proper. -/
theorem Sound.proper_arranged {r : String → String → Prop} {v : Value} (h : Sound r v) :
    Proper v.arranged := by
  induction h with
  | null => exact .null
  | bool b => exact .bool b
  | int hl hg => exact .int hl hg
  | float hf hc => exact .float hf hc
  | str s => exact .str s
  | arr _ ih =>
    rw [arranged_arr]
    exact .arr (List.forall_mem_map.mpr ih)
  | obj _ _ ih =>
    refine .obj (ascending_ofEntries _) fun entry he => ?_
    obtain ⟨field, hf, rfl⟩ := mem_arrangedFields (mem_of_mem_ofEntries he)
    exact ih field hf

/-- A proper value is arranged. -/
theorem Proper.arranged_eq {v : Value} (h : Proper v) : arranged v = v := by
  induction h with
  | null => rfl
  | bool => rfl
  | int => rfl
  | float => rfl
  | str => rfl
  | arr _ ih => rw [arranged_arr, List.map_congr_left ih]; simp
  | obj hn _ ih => rw [arranged, arrangedFields_eq_self ih, Ascending.ofEntries_eq hn]

end Value

end ServiceMaps
