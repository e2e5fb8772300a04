import ServiceMaps.Proofs.Items
import ServiceMaps.Proofs.NormalForm
import ServiceMaps.Proofs.Reports
import ServiceMaps.Proofs.Yaml.Mappings

/-!
What reading keeps of the entries of a YAML text. A value has all entries of the mappings in its
text unless two keys of one mapping become the same name, and those are a text and a number or truth
value that the text spells. The document that is loaded from the value has the entries of its own
mapping either in the declared field of their name or as further fields, each on its own. Declared
names are neither numbers nor truth values, so that only a further field can be lost.
-/
namespace ServiceMaps

namespace Form

/-- What is written of the value of a declared field: its normal form, unless the field may be left
out and says no more than that. -/
def kept? (m : Member Form) (v : Value) : Option Value :=
  if !m.required && isDefault (normal m.form v) then none else some (normal m.form v)

theorem normalMembers_cons (m : Member Form) (rest : List (Member Form)) (fields : Fields) :
    normalMembers (m :: rest) fields =
      (((fields.get? m.name).bind (kept? m)).map fun v => (m.name, v)).toList ++
        normalMembers rest fields := by
  obtain ⟨name, required, form⟩ := m
  rw [normalMembers]
  congr 1
  cases fields.get? name with
  | none => rfl
  | some v =>
    simp only [Option.bind_some, kept?]
    split <;> rfl

theorem get?_reverse_toList (name key : String) (o : Option Value) :
    Fields.get? name (o.map fun v => (key, v)).toList.reverse =
      if key = name then o else none := by
  cases o <;> simp [Fields.get?_cons]

/-- The normal form has of every field of a table what is written of its value. -/
theorem get?_normalMembers {members : List (Member Form)} (hn : (members.map (·.name)).Nodup)
    {m : Member Form} (hm : m ∈ members) (fields : Fields) :
    Fields.get? m.name (normalMembers members fields).reverse =
      (fields.get? m.name).bind (kept? m) := by
  induction members with
  | nil => simp at hm
  | cons first rest ih =>
    rw [List.map_cons, List.nodup_cons] at hn
    rw [normalMembers_cons, List.reverse_append, Fields.get?_append, get?_reverse_toList]
    rcases List.mem_cons.mp hm with rfl | hm
    · have hnone : Fields.get? m.name (normalMembers rest fields).reverse = none := by
        refine Fields.get?_eq_none_iff.mpr fun hmem => hn.1 ?_
        exact names_normalMembers rest fields (by simpa [Fields.names] using hmem)
      rw [hnone, if_pos rfl, Option.none_or]
    · have hne : first.name ≠ m.name := fun he => hn.1 (he ▸ List.mem_map_of_mem hm)
      rw [ih hn.2 hm, if_neg hne, Option.or_none]

end Form

namespace Document

open Fields Value

variable {settings : Settings} {v : Value} {d : Document}

/-- A declared field has in the normal form what is written of its value. -/
theorem get?_normal_of_known {k : Kind} (hk : namedKind v = .ok k) {m : Member Form}
    (hm : m ∈ Form.document k) :
    (normal v).get? m.name = (v.get? m.name).bind (Form.kept? m) := by
  cases v with
  | obj fields =>
    have hnone : Fields.get? m.name
        (Fields.excluding ((Form.document k).map (·.name)) fields).reverse = none := by
      refine get?_eq_none_iff.mpr fun hmem => ?_
      obtain ⟨entry, he, hname⟩ := List.mem_map.mp hmem
      refine (mem_excluding.mp (List.mem_reverse.mp he)).2 ?_
      rw [hname]
      exact List.mem_map_of_mem hm
    simp only [normal, hk, Value.get?]
    rw [get?_ofEntries, List.reverse_append, get?_append, hnone, Option.none_or,
      Form.get?_normalMembers (Form.names_nodup k) hm]
  | _ => simp [namedKind, Value.get?] at hk

/-- The further fields of a loaded document are those that its kind does not declare. -/
theorem extra_eq_excluding {fields : Fields} (h : load settings (.obj fields) = .ok d) :
    d.extra = Fields.excluding ((Form.document d.kind).map (·.name)) fields := by
  obtain ⟨found, hfound, -, -, hextra, -⟩ := read_of_load h
  obtain rfl := Value.obj.inj hfound
  rw [hextra, names_document, Reading.extra]

end Document

/-! ### Entries of a document -/

open Yaml

/-- The document holds the entries of a mapping. An entry with a declared name is what the field of
that name has, and all other entries are the further fields, each on its own. -/
structure Document.Holds (d : Document) (entries : List (Key × Datum)) : Prop where
  declared : ∀ m ∈ Form.document d.kind, ∀ entry ∈ entries, entry.1.text = m.name →
    d.toValue.get? m.name = Form.kept? m entry.2.toValue
  further : d.extra.Perm
    (Fields.excluding ((Form.document d.kind).map (·.name)) (Datum.toFields entries))

theorem Yaml.Key.Proper.text_not_declared {key : Key} (hp : key.Proper) (ht : key.isText = false)
    (k : Kind) : key.text ∉ (Form.document k).map (·.name) := by
  have hnames : ∀ name ∈ (Form.document k).map (·.name), name ≠ "true" ∧ name ≠ "false" ∧
      ∀ c ∈ name.toList, isDecimalDigit c = false := by
    rw [Document.names_document]
    cases k <;> simp [Reading.known, isDecimalDigit]
  intro hmem
  obtain ⟨htrue, hfalse, hplain⟩ := hnames _ hmem
  have hdigit : ¬ ∃ c ∈ key.text.toList, isDecimalDigit c = true := by
    rintro ⟨c, hc, hd⟩
    rw [hplain c hc] at hd
    simp at hd
  cases key with
  | bool b => cases b <;> simp [Key.text] at htrue hfalse
  | int n => exact hdigit (Key.exists_digit_int n)
  | float x => exact hdigit (Key.exists_digit_float hp)
  | str s => simp [Key.isText] at ht

namespace Document

open Yaml.Datum

variable {settings : Settings} {d : Document} {entries : List (Key × Datum)}

/-- A document that is loaded from a mapping holds the entries that no later entry replaces. -/
theorem holds_lasting (hp : (Datum.toValue (.map entries)).Proper)
    (h : load settings (Datum.toValue (.map entries)) = .ok d) : d.Holds (lasting entries) := by
  have hperm := fields_perm_lasting entries
  constructor
  · intro m hm entry hentry hname
    have hkind := namedKind_of_load settings h
    have hmem : (entry.1.text, entry.2.toValue) ∈ Fields.ofEntries (toFields entries) := by
      rw [hperm.mem_iff, toFields_eq_map]
      exact List.mem_map_of_mem hentry
    have hget : (Datum.toValue (.map entries)).get? m.name = some entry.2.toValue := by
      rw [← hname, Datum.toValue, Value.get?]
      exact (Fields.ascending_ofEntries _).get?_of_mem hmem
    rw [toValue_of_load hp h, get?_normal_of_known hkind hm, hget, Option.bind_some]
  · rw [Datum.toValue] at h
    rw [extra_eq_excluding h]
    exact hperm.filter _

/-- It holds all entries exactly if no key spells another. -/
theorem holds_iff (hkeys : KeysApart entries) (hp : (Datum.toValue (.map entries)).Proper)
    (h : load settings (Datum.toValue (.map entries)) = .ok d) :
    d.Holds entries ↔ ¬ Merges entries := by
  constructor
  · rintro hholds ⟨a, ha, b, hb, hspells⟩
    have hfree := (hkeys.proper b hb).text_not_declared hspells.2 d.kind
    have hnodup : d.extra.names.Nodup := by
      cases proper_extra_of_load hp h with
      | obj hascending _ => exact hascending.imp ne_of_lt
    rw [Fields.names, (hholds.further.map _).nodup_iff, excluding_toFields] at hnodup
    -- both keys are among the further fields
    apply (nodup_names_iff (hkeys.sublist List.filter_sublist)).mp hnodup
    refine ⟨a, ?_, b, ?_, hspells⟩
    · rw [List.mem_filter, hspells.text_eq]
      exact ⟨ha, by simpa using hfree⟩
    · exact List.mem_filter.mpr ⟨hb, by simpa using hfree⟩
  · intro hm
    have hall := holds_lasting hp h
    rwa [(lasting_eq_self_iff hkeys).mpr hm] at hall

end Document

/-- A document is loaded from a mapping; a tag has a name that no document has. -/
theorem Yaml.Datum.exists_map_of_load {settings : Settings} {datum : Datum} {d : Document}
    (h : Document.load settings datum.toValue = .ok d) : ∃ entries, datum = .map entries := by
  have hkind := (namedKind_eq_ok_iff _ _).mp (Document.namedKind_of_load settings h)
  cases datum with
  | map entries => exact ⟨entries, rfl⟩
  | float x =>
    rw [toValue] at hkind
    split at hkind <;> simp [Value.get?] at hkind
  | tagged name content =>
    have hne : "!" ++ name ≠ "kind" := by
      intro he
      have hlist := congrArg String.toList he
      simp at hlist
    simp [toValue, Value.get?, Fields.get?_cons, hne] at hkind
  | _ => simp [toValue, Value.get?] at hkind

namespace Yaml

open Datum

/-- What reading keeps of the mappings of a text. A value is what the datum at its place says, which
is what the tree there says. The value has all entries of all its mappings exactly if no key of a
mapping is a text that spells another key, which is no text. The object of any one mapping has the
entries that no later entry of their name replaces, and these are all of them exactly if no key of
that mapping spells another. A document that is loaded from the value holds the entries of its own
mapping in the same way, and every document of a service map is loaded from some value of its
text. -/
theorem documents_keep_entries_iff (text : String) :
    (∀ (index : Nat) (v : Value), (documents text)[index]? = some (some v) →
      ∃ (n : Node) (d : Datum), (nodes text)[index]? = some (some n) ∧
        (data text)[index]? = some (some d) ∧ Says n.anchored n d ∧ d.toValue = v ∧
        (d.KeepsEntries ↔ d.NamesApart) ∧
        (∀ path entries, d.At path (.map entries) →
          (Fields.ofEntries (toFields entries)).Perm (toFields (lasting entries)) ∧
          ((Fields.ofEntries (toFields entries)).length = entries.length ↔ ¬ Merges entries)) ∧
        ∀ settings doc, Document.load settings v = .ok doc →
          ∃ entries, d = .map entries ∧ doc.Holds (lasting entries) ∧
            (doc.Holds entries ↔ ¬ Merges entries)) ∧
    ∀ settings s, ServiceMap.ofText settings text = .ok s → ∀ doc ∈ s.documents,
      ∃ (index : Nat) (v : Value), (documents text)[index]? = some (some v) ∧
        Document.load settings v = .ok doc := by
  refine ⟨fun index v h => ?_, fun settings s h doc hd => ?_⟩
  · obtain ⟨n, d, hn, hd, hsays, rfl⟩ := exists_says_of_documents h
    refine ⟨n, d, hn, hd, hsays, rfl, keepsEntries_iff hsays.keyed hsays.proper, ?_, ?_⟩
    · intro path entries hat
      exact ⟨fields_perm_lasting entries, length_fields_eq_iff (hat.keyed hsays.keyed).keysApart⟩
    · intro settings doc hload
      obtain ⟨entries, rfl⟩ := exists_map_of_load hload
      exact ⟨entries, rfl, Document.holds_lasting hsays.proper hload,
        Document.holds_iff hsays.keyed.keysApart hsays.proper hload⟩
  · obtain ⟨v, hv, hload⟩ := ServiceMap.exists_load_of_ofItems h hd
    obtain ⟨index, hindex⟩ := List.mem_iff_getElem?.mp hv
    exact ⟨index, v, hindex, hload⟩

/-- Whole numbers, a truth value and texts as keys of two mappings, where no key spells another of
its mapping. -/
theorem documents_keep_entries_numbered :
    let text := "kind: sbp\nversion: '1'\nid: b\nlanes: []\ntasks: []\n" ++
      "7:\n  1: x\n  true: y\n  '7': z\n"
    let extra : Fields := [("7", .obj [("1", .str "x"), ("7", .str "z"), ("true", .str "y")])]
    let doc : Document := .blueprint ⟨"1", "b", [], [], extra⟩
    ServiceMap.ofText .standard text = .ok (ServiceMap.empty.insert doc) ∧
      ∃ (index : Nat) (v : Value) (entries : List (Key × Datum)),
        (documents text)[index]? = some (some v) ∧
        (data text)[index]? = some (some (.map entries)) ∧ (Datum.map entries).KeepsEntries ∧
        Document.load .standard v = .ok doc ∧ doc.Holds entries := by
  intro text extra doc
  have hdocuments : documents text = [some (.obj (("7", .obj [("1", .str "x"), ("7", .str "z"),
      ("true", .str "y")]) :: [("id", .str "b"), ("kind", .str "sbp"), ("lanes", .arr []),
      ("tasks", .arr []), ("version", .str "1")]))] := by
    decide +kernel
  have hapart : (data text).all (fun o => o.all fun d => decide d.NamesApart) = true := by
    decide +kernel
  have htext : ServiceMap.ofText .standard text = .ok (ServiceMap.empty.insert doc) := by
    rw [ServiceMap.ofText, hdocuments]
    decide +kernel
  obtain ⟨index, v, hv, hload⟩ :=
    (documents_keep_entries_iff text).2 .standard _ htext doc (by decide)
  obtain ⟨n, d, -, hd, -, -, hkeeps, -, hheld⟩ := (documents_keep_entries_iff text).1 index v hv
  obtain ⟨entries, rfl, -, hholds⟩ := hheld .standard doc hload
  have hnames : (Datum.map entries).NamesApart := by
    simpa using List.all_eq_true.mp hapart _ (List.mem_of_getElem? hd)
  exact ⟨htext, index, v, entries, hv, hd, hkeeps.mpr hnames, hload,
    hholds.mpr (hnames [] entries (.here _))⟩

/-- The keys of a mapping; nothing else has keys. -/
def Datum.keys : Datum → List Key
  | .map entries => entries.map (·.1)
  | _ => []

/-- A number and the text that spells it are two keys, and the value of the text alone is left, in
any mapping and in a document. -/
theorem documents_merge_entries :
    (data "1: a\n'1': b\n" = [some (.map [(.int 1, .str "a"), (.str "1", .str "b")])] ∧
      documents "1: a\n'1': b\n" = [some (.obj [("1", .str "b")])]) ∧
    let text := "kind: cjm\nversion: '1.0'\nid: i\nphases: []\nactions: []\n1: a\n'1': b\n"
    let keys : List Key := [.str "kind", .str "version", .str "id", .str "phases", .str "actions",
      .int 1, .str "1"]
    let doc : Document := .journey ⟨"1.0", "i", none, [], [], [("1", .str "b")]⟩
    ServiceMap.ofText .standard text = .ok (ServiceMap.empty.insert doc) ∧
      ∃ entries, data text = [some (.map entries)] ∧ entries.map (·.1) = keys ∧
        ¬ (Datum.map entries).KeepsEntries ∧ ¬ doc.Holds entries := by
  refine ⟨⟨by cbv, by decide +kernel⟩, ?_⟩
  intro text keys doc
  have hdocuments : documents text = [some (.obj [("1", .str "b"), ("actions", .arr []),
      ("id", .str "i"), ("kind", .str "cjm"), ("phases", .arr []), ("version", .str "1.0")])] := by
    decide +kernel
  have hread : (data text).map (Option.map Datum.keys) = [some keys] := by
    decide +kernel
  have htext : ServiceMap.ofText .standard text = .ok (ServiceMap.empty.insert doc) := by
    rw [ServiceMap.ofText, hdocuments]
    decide +kernel
  obtain ⟨n, d, -, hd, hsays, hv⟩ := exists_says_of_documents
    (show (documents text)[0]? = _ by rw [hdocuments]; rfl)
  have hload : Document.load .standard d.toValue = .ok doc := by
    rw [hv]
    decide +kernel
  obtain ⟨entries, rfl⟩ := exists_map_of_load hload
  obtain ⟨o, hdata, ho⟩ := List.map_eq_singleton_iff.mp hread
  obtain rfl : o = some (.map entries) := by simpa [hdata] using hd
  have hkeys : entries.map (·.1) = keys := Option.some.inj ho
  have hmerges : Merges entries := by
    have hspells : ∃ a ∈ entries.map (·.1), ∃ b ∈ entries.map (·.1), a.Spells b := by
      rw [hkeys]
      decide
    simpa [Merges] using hspells
  refine ⟨htext, entries, hdata, hkeys, ?_, ?_⟩
  · rw [keepsEntries_iff hsays.keyed hsays.proper]
    exact fun hapart => hapart [] entries (.here _) hmerges
  · rw [Document.holds_iff hsays.keyed.keysApart hsays.proper hload]
    exact fun h => h hmerges

end Yaml

end ServiceMaps
