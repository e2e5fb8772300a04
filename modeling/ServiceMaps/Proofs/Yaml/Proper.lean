import ServiceMaps.Proofs.Fields
import ServiceMaps.Proofs.Yaml.Meaning
import ServiceMaps.Proofs.Number.Shortest

/-!
What YAML texts say is proper: whole numbers fit 64 bits, floating numbers are rounded to their
format, and the fields of every object stand in the order of their names, each name once.
-/
namespace ServiceMaps.Yaml.Datum

open Value

/-- What a scalar may say: no collection, a whole number of 64 bits, a floating number that is
rounded to its format. -/
inductive IsScalar : Datum → Prop where
  | null : IsScalar .null
  | bool (b : Bool) : IsScalar (.bool b)
  | int {n : Int} : fits 64 n = true → IsScalar (.int n)
  | float {x : Binary64} : x.Canonical → IsScalar (.float x)
  | str (s : String) : IsScalar (.str s)

theorem canonical_float? {s : String} {x : Binary64} (h : float? s = some x) : x.Canonical := by
  unfold float? at h
  split at h
  · obtain rfl := Option.some.inj h
    exact trivial
  · split at h
    · obtain rfl := Option.some.inj h
      exact trivial
    · split at h
      · obtain rfl := Option.some.inj h
        exact trivial
      · obtain ⟨hread, -⟩ := Option.filter_eq_some_iff.mp h
        obtain ⟨l, -, rfl⟩ := Option.map_eq_some_iff.mp hread
        exact Binary64.canonical_ofDecimal l.negative l.digits l.exponent

theorem isScalar_ofPlain? {s : String} {d : Datum} (h : ofPlain? s = some d) : d.IsScalar := by
  unfold ofPlain? at h
  split at h
  · obtain rfl := Option.some.inj h
    exact .null
  · split at h
    · obtain rfl := Option.some.inj h
      exact .bool _
    · split at h
      · split at h
        · obtain rfl := Option.some.inj h
          rename_i hfits
          exact .int hfits
        · simp at h
      · split at h
        · obtain rfl := Option.some.inj h
          exact .str s
        · split at h
          · obtain rfl := Option.some.inj h
            rename_i hx
            exact .float (canonical_float? hx)
          · obtain rfl := Option.some.inj h
            exact .str s

theorem isScalar_ofUntagged? {s : String} {plain : Bool} {d : Datum}
    (h : ofUntagged? s plain = some d) : d.IsScalar := by
  unfold ofUntagged? at h
  split at h
  · exact isScalar_ofPlain? h
  · obtain rfl := Option.some.inj h
    exact .str s

theorem isScalar_ofTagged? {tag : Tag} {s : String} {plain : Bool} {d : Datum}
    (h : ofTagged? tag s plain = some d) : d.IsScalar := by
  unfold ofTagged? at h
  split at h
  · obtain ⟨b, -, rfl⟩ := Option.map_eq_some_iff.mp h
    exact .bool b
  · split at h
    · obtain ⟨n, hn, rfl⟩ := Option.map_eq_some_iff.mp h
      exact .int (Option.filter_eq_some_iff.mp hn).2
    · split at h
      · obtain ⟨x, hx, rfl⟩ := Option.map_eq_some_iff.mp h
        exact .float (canonical_float? hx)
      · split at h
        · split at h
          · obtain rfl := Option.some.inj h
            exact .null
          · simp at h
        · split at h
          · exact isScalar_ofUntagged? h
          · obtain rfl := Option.some.inj h
            exact .str s

/-- What a scalar says stands under its local tag, if it has one. -/
theorem isScalar_ofScalar? {tag : Option Tag} {s : String} {plain : Bool} {d : Datum}
    (h : ofScalar? tag s plain = some d) :
    ∃ content : Datum, content.IsScalar ∧ d = underTag tag content := by
  unfold ofScalar? at h
  unfold underTag
  split at h
  · rename_i name hname
    obtain ⟨content, hc, rfl⟩ := Option.map_eq_some_iff.mp h
    exact ⟨content, isScalar_ofUntagged? hc, by rw [hname]⟩
  · rename_i hname
    exact ⟨d, isScalar_ofTagged? h, by rw [hname]⟩
  · exact ⟨d, isScalar_ofUntagged? h, rfl⟩

theorem IsScalar.proper {d : Datum} (h : d.IsScalar) : (toValue d).Proper := by
  cases h with
  | null => exact .null
  | bool b => exact .bool b
  | int hn =>
    simp only [fits, Bool.and_eq_true, decide_eq_true_eq] at hn
    exact .int hn.1 hn.2
  | float hx =>
    rw [toValue]
    split
    · rename_i hf
      exact .float hf hx
    · exact .null
  | str s => exact .str s

theorem proper_underTag {tag : Option Tag} {d : Datum} (h : (toValue d).Proper) :
    (toValue (underTag tag d)).Proper := by
  unfold underTag
  split
  · -- a tag becomes the only field of an object
    rw [toValue]
    refine .obj (List.pairwise_singleton _ _) fun entry hentry => ?_
    rw [List.mem_singleton.mp hentry]
    exact h
  · exact h

theorem toValues_eq_map (items : List Datum) : toValues items = items.map toValue := by
  induction items with
  | nil => rfl
  | cons d rest ih => rw [toValues, ih, List.map_cons]

theorem toFields_eq_map (entries : List (Key × Datum)) :
    toFields entries = entries.map fun entry => (entry.1.text, toValue entry.2) := by
  induction entries with
  | nil => rfl
  | cons entry rest ih => rw [toFields, ih, List.map_cons]

theorem proper_seq {items : List Datum} (h : ∀ d ∈ items, (toValue d).Proper) :
    (toValue (.seq items)).Proper := by
  rw [toValue, toValues_eq_map]
  refine .arr fun v hv => ?_
  obtain ⟨d, hd, rfl⟩ := List.mem_map.mp hv
  exact h d hd

/-- Entries are put in the order of their names. -/
theorem proper_map {entries : List (Key × Datum)}
    (h : ∀ entry ∈ entries, (toValue entry.2).Proper) :
    (toValue (.map entries)).Proper := by
  rw [toValue, toFields_eq_map]
  refine .obj (Fields.ascending_ofEntries _) fun field hfield => ?_
  obtain ⟨entry, hentry, rfl⟩ := List.mem_map.mp (Fields.mem_of_mem_ofEntries hfield)
  exact h entry hentry

/-- Whatever a node says is proper. -/
theorem Says.proper {anchors : Anchors} {n : Node} {d : Datum} (h : Says anchors n d) :
    (toValue d).Proper := by
  induction h with
  | scalar hd =>
    obtain ⟨content, hcontent, rfl⟩ := isScalar_ofScalar? hd
    exact proper_underTag hcontent.proper
  | followed _ _ ih => exact ih
  | sequence hlength _ ih =>
    apply proper_underTag
    refine proper_seq fun d hd => ?_
    obtain ⟨n, hn⟩ := exists_mem_zip hlength hd
    exact ih _ hn
  | mapping hlength _ _ hentries _ ih =>
    apply proper_underTag
    refine proper_map fun entry hentry => ?_
    obtain ⟨pair, key, hpair, -⟩ := exists_read_of_mem hlength hentries hentry
    exact ih _ hpair

end ServiceMaps.Yaml.Datum

namespace ServiceMaps.Yaml

/-- Every value that a text holds is proper. -/
theorem proper_of_mem_documents {text : String} {v : Value} (h : some v ∈ documents text) :
    v.Proper := by
  obtain ⟨i, hi⟩ := List.mem_iff_getElem?.mp h
  obtain ⟨n, d, -, -, hsays, rfl⟩ := exists_says_of_documents hi
  exact hsays.proper

end ServiceMaps.Yaml
