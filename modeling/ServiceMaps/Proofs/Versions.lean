import ServiceMaps.Proofs.Items
import ServiceMaps.Proofs.Restoring

/-!
Settings that list versions. They are a filter and nothing more: under them a text says what it says
under the standard settings, or it is refused for the first of its documents whose version is not
listed. Documents that another of their kind replaces must be of a listed version too.
-/
namespace ServiceMaps

variable {settings : Settings}

/-- The version of a value is one of those that the settings list. -/
def VersionListed (settings : Settings) (v : Value) : Prop :=
  ∃ version ∈ settings.allowedVersions, v.get? "version" = some (.str version)

theorem VersionListed.allowed {v : Value} (h : VersionListed settings v) :
    VersionAllowed settings v := by
  obtain ⟨version, hmem, hv⟩ := h
  intro other hother
  obtain rfl : version = other := by simpa [hv] using hother
  exact (Settings.allows_iff (List.ne_nil_of_mem hmem)).mpr hmem

namespace Document

/-- An allowed version makes no difference. -/
theorem load_eq_standard {v : Value} (h : VersionAllowed settings v) :
    load settings v = load .standard v := by
  have hstandard : VersionAllowed .standard v := fun version _ => Settings.allows_standard version
  have hinspect : ∀ k, inspect settings k v = inspect .standard k v := by
    intro k
    rw [inspect, inspect, (versionFlaws_eq_nil_iff _ _).mpr h,
      (versionFlaws_eq_nil_iff _ _).mpr hstandard]
  simp only [load, hinspect]

theorem listed_of_load (h : settings.allowedVersions ≠ []) {v : Value} {d : Document}
    (hd : load settings v = .ok d) : VersionListed settings v :=
  ⟨d.version, (Settings.allows_iff h).mp (version_of_load hd), get?_version_of_load hd⟩

end Document

namespace ServiceMap

open Document

/-- A document without a fault that names a kind is loaded. -/
theorem exists_load_of_fault? {index : Nat} {v : Value} (hk : namesKind v = true)
    (h : fault? settings index (some v) = none) : ∃ d, load settings v = .ok d := by
  rcases hl : load settings v with e | d
  · simp [fault?, hk, hl] at h
  · exact ⟨d, rfl⟩

theorem listed_of_faultless (hlist : settings.allowedVersions ≠ []) {index : Nat}
    {items : List (Option Value)} (h : Faultless settings index items) :
    ∀ v, some v ∈ items → namesKind v = true → VersionListed settings v := by
  intro v hv hk
  obtain ⟨i, hi⟩ := List.mem_iff_getElem?.mp hv
  obtain ⟨d, hd⟩ := exists_load_of_fault? hk (h i _ hi)
  exact listed_of_load hlist hd

/-- One document is added as under the standard settings if its version is listed. -/
theorem addItem_eq_standard {index : Nat} {item : Option Value} (s : ServiceMap)
    (h : ∀ v, item = some v → namesKind v = true → VersionListed settings v) :
    addItem settings index item s = addItem .standard index item s := by
  cases item with
  | none => rfl
  | some v =>
    cases hk : namesKind v with
    | false => simp [addItem, hk]
    | true => simp only [addItem, hk, if_true, load_eq_standard (h v rfl hk).allowed]

theorem addItems_eq_standard {index : Nat} {items : List (Option Value)} (s : ServiceMap)
    (h : ∀ v, some v ∈ items → namesKind v = true → VersionListed settings v) :
    addItems settings index items s = addItems .standard index items s := by
  induction items generalizing index s with
  | nil => rfl
  | cons item rest ih =>
    have hitem : addItem settings index item s = addItem .standard index item s :=
      addItem_eq_standard s fun v hv => h v (hv ▸ List.mem_cons_self)
    rw [addItems, addItems, hitem]
    exact bind_congr fun s' => ih s' fun v hv => h v (List.mem_cons_of_mem _ hv)

/-- Of a document that is in order under the standard settings and at fault under others, the
version is not listed, and that is the fault. -/
theorem fault?_of_version {index : Nat} {item : Option Value} {e : LoadError}
    (hlist : settings.allowedVersions ≠ []) (hfine : fault? .standard index item = none)
    (h : fault? settings index item = some e) :
    ∃ v d, item = some v ∧ load .standard v = .ok d ∧ d.version ∉ settings.allowedVersions ∧
      e = .invalid d.kind
        [⟨[.field "version"], .otherVersion d.version settings.allowedVersions⟩] := by
  rcases fault?_cases h with ⟨rfl, -⟩ | ⟨v, rfl, hk, hl, -⟩
  · simp [fault?] at hfine
  · obtain ⟨d, hd⟩ := exists_load_of_fault? hk hfine
    have hversion : settings.allows d.version = false := by
      by_contra hallowed
      have hequal : load settings v = load .standard v := by
        refine load_eq_standard fun version hv => ?_
        rw [get?_version_of_load hd] at hv
        obtain rfl : d.version = version := by simpa using hv
        simpa using hallowed
      rw [hequal, hd] at hl
      simp at hl
    refine ⟨v, d, rfl, hd, fun hmem => ?_, ?_⟩
    · rw [(Settings.allows_iff hlist).mpr hmem] at hversion
      simp at hversion
    · rw [load_of_version hd hversion] at hl
      exact (Except.error.inj hl).symm

/-- Settings that list versions filter what the standard settings read. A text is read as a service
map under them exactly if it is read as that map under the standard settings, and the version of
every document in it that names a kind is listed, also of those that are replaced by later ones. If
only the standard settings read it, the error is about the first document that names a kind and
whose version is not listed, and says of it nothing but that. -/
theorem ofText_filters_versions (settings : Settings) (text : String)
    (hlist : settings.allowedVersions ≠ []) :
    (∀ s, ofText settings text = .ok s ↔ ofText .standard text = .ok s ∧
      ∀ v, some v ∈ Yaml.documents text → namesKind v = true → VersionListed settings v) ∧
    (∀ s, ofText .standard text = .ok s → (∀ s', ofText settings text ≠ .ok s') →
      ∃ before v after k version, Yaml.documents text = before ++ some v :: after ∧
        (∀ w, some w ∈ before → namesKind w = true → VersionListed settings w) ∧
        v.get? "kind" = some (.str k.text) ∧ v.get? "version" = some (.str version) ∧
        version ∉ settings.allowedVersions ∧
        ofText settings text = .error (.invalid k
          [⟨[.field "version"], .otherVersion version settings.allowedVersions⟩])) := by
  constructor
  · intro s
    constructor
    · intro h
      have hlisted := listed_of_faultless hlist (faultless_of_ofItems h)
      rw [ofText, ofItems, addItems_eq_standard _ hlisted] at h
      exact ⟨h, hlisted⟩
    · rintro ⟨h, hlisted⟩
      rw [ofText, ofItems, addItems_eq_standard _ hlisted]
      exact h
  · intro s hs hrefused
    have hfaulty : ¬ Faultless settings 0 (Yaml.documents text) := by
      intro hf
      obtain ⟨s', hs', -⟩ := ofItems_of_faultless hf
      exact hrefused s' hs'
    obtain ⟨before, item, after, e, hd, hb, he⟩ := exists_first_fault hfaulty
    have hfine : fault? .standard (0 + before.length) item = none := by
      refine faultless_of_ofItems hs before.length item ?_
      rw [hd]
      simp
    obtain ⟨v, d, rfl, hload, hversion, rfl⟩ := fault?_of_version hlist hfine he
    have hkind := namedKind_of_conforms ((inspect_valid_iff _ _ _).mp (valid_of_load _ hload).1).1
    refine ⟨before, v, after, d.kind, d.version, hd, listed_of_faultless hlist hb,
      (namedKind_eq_ok_iff _ _).mp hkind, get?_version_of_load hload, hversion, ?_⟩
    rw [ofText, hd]
    exact addItems_of_fault empty hb he

/-- A blueprint of version 2 is replaced by one of version 1. Settings with both versions read the
text as the standard ones do; settings with version 1 alone refuse it for the blueprint that is
replaced. -/
theorem ofText_filters_versions_replaced :
    let text := "kind: sbp\nversion: '2'\nid: a\nlanes: []\ntasks: []\n---\n" ++
      "kind: sbp\nversion: '1'\nid: b\nlanes: []\ntasks: []\n"
    let s := empty.insert (.blueprint ⟨"1", "b", [], [], []⟩)
    let both : Settings := ⟨["1", "2"], "1"⟩
    let one : Settings := ⟨["1"], "1"⟩
    both.allowedVersions ≠ [] ∧ one.allowedVersions ≠ [] ∧ ofText .standard text = .ok s ∧
      ofText both text = .ok s ∧ ∃ k version, ofText one text =
        .error (.invalid k [⟨[.field "version"], .otherVersion version ["1"]⟩]) := by
  intro text s both one
  have hd : Yaml.documents text =
      [some (.obj [("id", .str "a"), ("kind", .str "sbp"), ("lanes", .arr []),
        ("tasks", .arr []), ("version", .str "2")]),
      some (.obj [("id", .str "b"), ("kind", .str "sbp"), ("lanes", .arr []),
        ("tasks", .arr []), ("version", .str "1")])] := by
    decide +kernel
  have hs : ofText .standard text = .ok s := by
    rw [ofText, hd]
    decide +kernel
  have hboth : ∀ v, some v ∈ Yaml.documents text → namesKind v = true → VersionListed both v := by
    rw [hd]
    rintro v hv -
    rcases List.mem_pair.mp hv with hv | hv
    · obtain rfl := Option.some.inj hv
      exact ⟨"2", by decide, by decide +kernel⟩
    · obtain rfl := Option.some.inj hv
      exact ⟨"1", by decide, by decide +kernel⟩
  have hone : ∀ s', ofText one text ≠ .ok s' := by
    intro s' h
    obtain ⟨-, hlisted⟩ := ((ofText_filters_versions one text (by decide)).1 s').mp h
    rw [hd] at hlisted
    obtain ⟨version, hmem, hv⟩ := hlisted _ List.mem_cons_self (by decide +kernel)
    obtain rfl : version = "1" := by simpa [one] using hmem
    revert hv
    decide +kernel
  refine ⟨by decide, by decide, hs, ?_, ?_⟩
  · exact ((ofText_filters_versions both text (by decide)).1 s).mpr ⟨hs, hboth⟩
  · obtain ⟨-, -, -, k, version, -, -, -, -, -, he⟩ :=
      (ofText_filters_versions one text (by decide)).2 s hs hone
    exact ⟨k, version, he⟩

end ServiceMap

end ServiceMaps
