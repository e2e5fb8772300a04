import ServiceMaps.Document.Inspection
import ServiceMaps.Proofs.Yaml.Keys

/-!
What becomes of the entries of a mapping. An object has one field for each name, and the last entry
of the name decides its value. The keys of a mapping are all different, so an entry is replaced only
where one key is a text that spells another key which is no text. A datum keeps the entries of all
its mappings, at every depth, exactly if none of them has two such keys, and this can be computed.
-/
namespace ServiceMaps

namespace Fields

/-- The entries that no later entry of their name replaces. -/
def lasting (entries : Fields) : Fields := entries.pwFilter fun first later => first.1 ≠ later.1

theorem forall_mem_lasting {name : String} {entries : Fields} :
    (∀ entry ∈ lasting entries, name ≠ entry.1) ↔ name ∉ entries.names := by
  refine (List.forall_mem_pwFilter (R := fun first later : String × Value => first.1 ≠ later.1)
    (fun {x y z} h => ?_) (name, Value.null) entries).trans ?_
  · by_cases hy : x.1 = y.1
    · exact .inr (hy ▸ h)
    · exact .inl hy
  · simp only [names, List.mem_map, not_exists, not_and, ne_comm]

/-- Of the entries of one name the last is found. -/
theorem mem_lasting {name : String} {v : Value} {entries : Fields} :
    (name, v) ∈ lasting entries ↔ get? name entries.reverse = some v := by
  induction entries with
  | nil => simp [lasting]
  | cons entry rest ih =>
    obtain ⟨key, w⟩ := entry
    rw [List.reverse_cons, get?_append, get?_cons, get?_nil]
    by_cases hlast : key ∈ names rest
    · have hkeep : ¬ ∀ entry ∈ lasting rest, key ≠ entry.1 := fun h => forall_mem_lasting.mp h hlast
      rw [lasting, List.pwFilter_cons_of_neg hkeep, ← lasting, ih]
      by_cases hname : key = name
      · -- the name is found in what follows
        subst hname
        cases hg : get? key rest.reverse with
        | none => exact absurd (by simpa [names] using hlast) (get?_eq_none_iff.mp hg)
        | some u => simp
      · simp [hname]
    · have hkeep : ∀ entry ∈ lasting rest, key ≠ entry.1 := forall_mem_lasting.mpr hlast
      rw [lasting, List.pwFilter_cons_of_pos hkeep, ← lasting, List.mem_cons, ih]
      by_cases hname : key = name
      · subst hname
        have hnone : get? key rest.reverse = none :=
          get?_eq_none_iff.mpr (by simpa [names] using hlast)
        simp [hnone, eq_comm]
      · have hne : name ≠ key := fun h => hname h.symm
        simp [hname, hne]

theorem nodup_lasting (entries : Fields) : (lasting entries).names.Nodup :=
  List.pairwise_map.mpr (List.pairwise_pwFilter entries)

theorem Ascending.nodup {fields : Fields} (h : Ascending fields) : fields.Nodup :=
  List.Nodup.of_map _ (List.Pairwise.imp ne_of_lt h)

/-- Collecting entries keeps those that last, in the order of their names. -/
theorem ofEntries_perm_lasting (entries : Fields) : (ofEntries entries).Perm (lasting entries) := by
  have hcollected := ascending_ofEntries entries
  refine (List.perm_ext_iff_of_nodup hcollected.nodup (nodup_lasting entries).of_map).mpr ?_
  rintro ⟨name, v⟩
  rw [mem_lasting, ← get?_ofEntries]
  exact ⟨fun h => hcollected.get?_of_mem h, mem_of_get?⟩

end Fields

namespace Yaml.Datum

/-- The keys of a mapping are numbers of their formats, and no key is the same as another. -/
structure KeysApart (entries : List (Key × Datum)) : Prop where
  proper : ∀ entry ∈ entries, entry.1.Proper
  apart : entries.Pairwise fun first later => later.1.same first.1 = false

theorem KeysApart.sublist {entries few : List (Key × Datum)} (h : KeysApart entries)
    (hs : few.Sublist entries) : KeysApart few :=
  ⟨fun entry hentry => h.proper entry (hs.subset hentry), h.apart.sublist hs⟩

/-- A datum whose mappings have keys that are apart. -/
inductive Keyed : Datum → Prop where
  | scalar {d : Datum} : d.IsScalar → Keyed d
  | seq {items : List Datum} : (∀ d ∈ items, Keyed d) → Keyed (.seq items)
  | map {entries : List (Key × Datum)} : KeysApart entries →
      (∀ entry ∈ entries, Keyed entry.2) → Keyed (.map entries)
  | tagged (name : String) {content : Datum} : Keyed content → Keyed (.tagged name content)

theorem Keyed.underTag {tag : Option Tag} {d : Datum} (h : d.Keyed) : (underTag tag d).Keyed := by
  unfold Datum.underTag
  split
  · exact .tagged _ h
  · exact h

theorem proper_key? {d : Datum} {key : Key} (hd : (toValue d).Proper) (h : d.key? = some key) :
    key.Proper := by
  cases d with
  | bool b =>
    obtain rfl := Option.some.inj h
    trivial
  | int n =>
    obtain rfl := Option.some.inj h
    trivial
  | float x =>
    rw [key?] at h
    split at h
    · rename_i hf
      obtain rfl := Option.some.inj h
      rw [toValue, if_pos hf] at hd
      cases hd with
      | float _ hc => exact ⟨hf, hc⟩
    · simp at h
  | str s =>
    obtain rfl := Option.some.inj h
    trivial
  | _ => simp [key?] at h

/-- Whatever a node says has mappings whose keys are apart. -/
theorem Says.keyed {anchors : Anchors} {n : Node} {d : Datum} (h : Says anchors n d) : d.Keyed := by
  induction h with
  | scalar hd =>
    obtain ⟨content, hcontent, rfl⟩ := isScalar_ofScalar? hd
    exact (Keyed.scalar hcontent).underTag
  | followed _ _ ih => exact ih
  | sequence hlength _ ih =>
    apply Keyed.underTag
    apply Keyed.seq
    intro d hd
    obtain ⟨n, hn⟩ := exists_mem_zip hlength hd
    exact ih _ hn
  | mapping hlength hkeys _ hentries _ ihvalues =>
    apply Keyed.underTag
    refine .map ⟨fun entry hentry => ?_, (entries?_eq_some hentries).2⟩ fun entry hentry => ?_
    · -- a key is a scalar of the text, and what that says is proper
      obtain ⟨pair, key, hpair, hkey⟩ := exists_read_of_mem hlength hentries hentry
      exact proper_key? (hkeys _ hpair).proper hkey
    · obtain ⟨pair, key, hpair, -⟩ := exists_read_of_mem hlength hentries hentry
      exact ihvalues _ hpair

/-! ### Keys of one name -/

/-- Some key of a mapping is a text that spells another key, which is no text. -/
def Merges (entries : List (Key × Datum)) : Prop :=
  ∃ a ∈ entries, ∃ b ∈ entries, a.1.Spells b.1

instance (entries : List (Key × Datum)) : Decidable (Merges entries) :=
  inferInstanceAs (Decidable (∃ a ∈ entries, ∃ b ∈ entries, a.1.Spells b.1))

theorem names_toFields (entries : List (Key × Datum)) :
    Fields.names (toFields entries) = entries.map (·.1.text) := by
  simp [toFields_eq_map, Fields.names]

theorem excluding_toFields (known : List String) (entries : List (Key × Datum)) :
    Fields.excluding known (toFields entries) =
      toFields (entries.filter fun entry => !known.contains entry.1.text) := by
  rw [toFields_eq_map, toFields_eq_map, Fields.excluding, List.filter_map]
  rfl

/-- The names of a mapping are all different exactly if no key spells another. -/
theorem nodup_names_iff {entries : List (Key × Datum)} (h : KeysApart entries) :
    (Fields.names (toFields entries)).Nodup ↔ ¬ Merges entries := by
  rw [names_toFields]
  constructor
  · rintro hnodup ⟨a, ha, b, hb, hspells⟩
    exact hspells.ne (congrArg Prod.fst (List.inj_on_of_nodup_map hnodup ha hb hspells.text_eq))
  · intro hmerges
    refine List.pairwise_map.mpr (h.apart.imp_of_mem fun {a b} ha hb hne htext => hmerges ?_)
    rcases Key.spells_of_text_eq (h.proper a ha) (h.proper b hb) hne htext with hs | hs
    · exact ⟨a, ha, b, hb, hs⟩
    · exact ⟨b, hb, a, ha, hs⟩

/-- The entries of a mapping that no later entry of their name replaces. -/
def lasting (entries : List (Key × Datum)) : List (Key × Datum) :=
  entries.pwFilter fun first later => first.1.text ≠ later.1.text

theorem toFields_lasting (entries : List (Key × Datum)) :
    toFields (lasting entries) = Fields.lasting (toFields entries) := by
  rw [toFields_eq_map, toFields_eq_map, Fields.lasting, List.pwFilter_map, lasting]

/-- The object of a mapping has the entries that last, in the order of their names. -/
theorem fields_perm_lasting (entries : List (Key × Datum)) :
    (Fields.ofEntries (toFields entries)).Perm (toFields (lasting entries)) := by
  rw [toFields_lasting]
  exact Fields.ofEntries_perm_lasting _

/-- All entries last exactly if no key spells another. -/
theorem lasting_eq_self_iff {entries : List (Key × Datum)} (h : KeysApart entries) :
    lasting entries = entries ↔ ¬ Merges entries := by
  rw [← nodup_names_iff h, names_toFields, lasting, List.pwFilter_eq_self]
  exact List.pairwise_map.symm

theorem fields_perm {entries : List (Key × Datum)} (h : KeysApart entries)
    (hm : ¬ Merges entries) : (Fields.ofEntries (toFields entries)).Perm (toFields entries) := by
  have hperm := fields_perm_lasting entries
  rwa [(lasting_eq_self_iff h).mpr hm] at hperm

/-- The object of a mapping has as many fields as the mapping has entries exactly if no key spells
another. -/
theorem length_fields_eq_iff {entries : List (Key × Datum)} (h : KeysApart entries) :
    (Fields.ofEntries (toFields entries)).length = entries.length ↔ ¬ Merges entries := by
  rw [← lasting_eq_self_iff h, (fields_perm_lasting entries).length_eq, toFields_eq_map,
    List.length_map]
  exact ⟨(List.pwFilter_sublist entries).eq_of_length, fun he => by rw [he]⟩

/-! ### Mappings at every depth -/

/-- What stands in a datum at the place that a path leads to in its value. -/
inductive At : Datum → Path → Datum → Prop where
  | here (d : Datum) : At d [] d
  | item {items : List Datum} {i : Nat} {d e : Datum} {path : Path} : items[i]? = some d →
      At d path e → At (.seq items) (.index i :: path) e
  | entry {entries : List (Key × Datum)} {key : Key} {d e : Datum} {path : Path} :
      (key, d) ∈ entries → At d path e → At (.map entries) (.field key.text :: path) e
  | content {name : String} {d e : Datum} {path : Path} : At d path e →
      At (.tagged name d) (.field ("!" ++ name) :: path) e

theorem At.keyed {d e : Datum} {path : Path} (h : At d path e) (hd : d.Keyed) : e.Keyed := by
  induction h with
  | here d => exact hd
  | item hi _ ih =>
    apply ih
    cases hd with
    | scalar hs => nomatch hs
    | seq hitems => exact hitems _ (List.mem_of_getElem? hi)
  | entry hm _ ih =>
    apply ih
    cases hd with
    | scalar hs => nomatch hs
    | map _ hvalues => exact hvalues _ hm
  | content _ ih =>
    apply ih
    cases hd with
    | scalar hs => nomatch hs
    | tagged _ hcontent => exact hcontent

theorem Keyed.keysApart {entries : List (Key × Datum)} (h : Keyed (.map entries)) :
    KeysApart entries := by
  cases h with
  | scalar hs => nomatch hs
  | map hkeys _ => exact hkeys

/-- No key of a mapping in the datum spells another key of that mapping. -/
def NamesApart (d : Datum) : Prop :=
  ∀ path entries, At d path (.map entries) → ¬ Merges entries

/-- Every mapping in the datum stands in the value as an object that has one field for each entry of
the mapping, with the name that the key becomes and the value of the entry. -/
def KeepsEntries (d : Datum) : Prop :=
  ∀ path entries, At d path (.map entries) →
    ∃ fields, path.follow? d.toValue = some (.obj fields) ∧ fields.Perm (toFields entries)

/-- Where no key spells another, every part of the datum has its place in the value. -/
theorem At.follow? {d e : Datum} {path : Path} (h : At d path e) (hd : d.Keyed)
    (ha : d.NamesApart) : path.follow? d.toValue = some e.toValue := by
  induction h with
  | here d => rfl
  | @item items i d e path hi _ ih =>
    have hfirst : At (.seq items) [.index i] d := .item hi (.here d)
    rw [toValue, toValues_eq_map, Path.follow?, List.getElem?_map, hi]
    exact ih (hfirst.keyed hd) fun path entries hat => ha _ entries (.item hi hat)
  | @entry entries key d e path hm _ ih =>
    have hfirst : At (.map entries) [.field key.text] d := .entry hm (.here d)
    -- the names are apart, so that this name leads to this very entry
    have hperm := fields_perm hd.keysApart (ha [] entries (.here _))
    have hmem : (key.text, d.toValue) ∈ Fields.ofEntries (toFields entries) := by
      rw [hperm.mem_iff, toFields_eq_map]
      exact List.mem_map.mpr ⟨(key, d), hm, rfl⟩
    rw [toValue, Path.follow?, Value.get?, (Fields.ascending_ofEntries _).get?_of_mem hmem]
    exact ih (hfirst.keyed hd) fun path entries hat => ha _ entries (.entry hm hat)
  | @content name d e path _ ih =>
    have hfirst : At (.tagged name d) [.field ("!" ++ name)] d := .content (.here d)
    rw [toValue, Path.follow?, Value.get?, Fields.get?_cons, if_pos rfl]
    exact ih (hfirst.keyed hd) fun path entries hat => ha _ entries (.content hat)

theorem proper_of_follow? {path : Path} {v w : Value} (hv : v.Proper)
    (h : path.follow? v = some w) : w.Proper := by
  induction path generalizing v with
  | nil =>
    obtain rfl := Option.some.inj h
    exact hv
  | cons step path ih =>
    cases step with
    | field name =>
      obtain ⟨u, hu, h⟩ := Option.bind_eq_some_iff.mp h
      refine ih ?_ h
      cases hv with
      | obj _ hfields => exact hfields _ (Fields.mem_of_get? hu)
      | _ => simp [Value.get?] at hu
    | index i =>
      cases hv with
      | arr hitems =>
        obtain ⟨u, hu, h⟩ := Option.bind_eq_some_iff.mp h
        exact ih (hitems u (List.mem_of_getElem? hu)) h
      | _ => simp [Path.follow?] at h

/-- A datum keeps the entries of all its mappings exactly if no key spells another. -/
theorem keepsEntries_iff {d : Datum} (hd : d.Keyed) (hv : d.toValue.Proper) :
    d.KeepsEntries ↔ d.NamesApart := by
  constructor
  · intro hkeeps path entries hat
    obtain ⟨fields, hfollow, hperm⟩ := hkeeps path entries hat
    rw [← nodup_names_iff (hat.keyed hd).keysApart, Fields.names, ← (hperm.map _).nodup_iff]
    cases proper_of_follow? hv hfollow with
    | obj hascending _ => exact hascending.imp ne_of_lt
  · intro hapart path entries hat
    exact ⟨Fields.ofEntries (toFields entries), hat.follow? hd hapart,
      fields_perm (hat.keyed hd).keysApart (hapart path entries hat)⟩

/-! ### A check -/

mutual

/-- Whether some key of a mapping in the datum spells another key of that mapping. -/
def merging : Datum → Bool
  | .seq items => mergingItems items
  | .map entries => decide (Merges entries) || mergingEntries entries
  | .tagged _ content => merging content
  | _ => false

def mergingItems : List Datum → Bool
  | [] => false
  | d :: rest => merging d || mergingItems rest

def mergingEntries : List (Key × Datum) → Bool
  | [] => false
  | (_, d) :: rest => merging d || mergingEntries rest

end

theorem mergingItems_eq_any (items : List Datum) : mergingItems items = items.any merging := by
  induction items with
  | nil => rfl
  | cons d rest ih => rw [mergingItems, ih, List.any_cons]

theorem mergingEntries_eq_any (entries : List (Key × Datum)) :
    mergingEntries entries = entries.any fun entry => merging entry.2 := by
  induction entries with
  | nil => rfl
  | cons entry rest ih => rw [mergingEntries, ih, List.any_cons]

theorem At.merging {d : Datum} {path : Path} {entries : List (Key × Datum)}
    (h : At d path (.map entries)) (hm : Merges entries) : merging d = true := by
  generalize he : Datum.map entries = e at h
  induction h with
  | here d =>
    subst he
    simp [Datum.merging, hm]
  | item hi _ ih =>
    rw [Datum.merging, mergingItems_eq_any, List.any_eq_true]
    exact ⟨_, List.mem_of_getElem? hi, ih he⟩
  | entry hentry _ ih =>
    rw [Datum.merging, mergingEntries_eq_any, Bool.or_eq_true, List.any_eq_true]
    exact .inr ⟨_, hentry, ih he⟩
  | content _ ih => exact ih he

mutual

theorem exists_at_of_merging : ∀ {d : Datum}, merging d = true →
    ∃ path entries, At d path (.map entries) ∧ Merges entries
  | .seq items, h => by
    obtain ⟨i, d, hi, path, entries, hat, hm⟩ := exists_at_of_mergingItems h
    exact ⟨.index i :: path, entries, .item hi hat, hm⟩
  | .map entries, h => by
    rcases Bool.or_eq_true_iff.mp h with hm | h
    · exact ⟨[], entries, .here _, of_decide_eq_true hm⟩
    · obtain ⟨key, d, hentry, path, more, hat, hm⟩ := exists_at_of_mergingEntries h
      exact ⟨.field key.text :: path, more, .entry hentry hat, hm⟩
  | .tagged name content, h => by
    obtain ⟨path, entries, hat, hm⟩ := exists_at_of_merging (d := content) h
    exact ⟨.field ("!" ++ name) :: path, entries, .content hat, hm⟩

theorem exists_at_of_mergingItems : ∀ {items : List Datum}, mergingItems items = true →
    ∃ (i : Nat) (d : Datum), items[i]? = some d ∧
      ∃ path entries, At d path (.map entries) ∧ Merges entries
  | d :: rest, h => by
    rcases Bool.or_eq_true_iff.mp h with h | h
    · exact ⟨0, d, rfl, exists_at_of_merging h⟩
    · obtain ⟨i, e, hi, hat⟩ := exists_at_of_mergingItems h
      exact ⟨i + 1, e, hi, hat⟩

theorem exists_at_of_mergingEntries : ∀ {entries : List (Key × Datum)},
    mergingEntries entries = true →
    ∃ (key : Key) (d : Datum), (key, d) ∈ entries ∧
      ∃ path entries, At d path (.map entries) ∧ Merges entries
  | (key, d) :: rest, h => by
    rcases Bool.or_eq_true_iff.mp h with h | h
    · exact ⟨key, d, List.mem_cons_self, exists_at_of_merging h⟩
    · obtain ⟨other, e, he, hat⟩ := exists_at_of_mergingEntries h
      exact ⟨other, e, List.mem_cons_of_mem _ he, hat⟩

end

theorem namesApart_iff (d : Datum) : d.NamesApart ↔ merging d = false := by
  constructor
  · intro h
    rw [Bool.eq_false_iff]
    intro hmerging
    obtain ⟨path, entries, hat, hm⟩ := exists_at_of_merging hmerging
    exact h path entries hat hm
  · intro h path entries hat hm
    rw [hat.merging hm] at h
    simp at h

instance (d : Datum) : Decidable d.NamesApart := decidable_of_iff _ (namesApart_iff d).symm

/-- A text spells a key only with the very name that the key becomes. -/
example : (seq [map [(.int 1, .null), (.str "01", .null), (.bool true, .null)]]).NamesApart ∧
    ¬ (seq [map [(.str "true", .null), (.bool true, .null)]]).NamesApart := by
  decide

end Yaml.Datum

end ServiceMaps
