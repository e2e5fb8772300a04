import ServiceMaps.ServiceMap.Fresh
import ServiceMaps.Proofs.Restoring

/-!
New documents and the settings they are made under. A new document has all that its form asks for,
and carries the version that the settings name; so the same settings load it again exactly if they
allow that version, and else find nothing wrong with it but its version.
-/
namespace ServiceMaps

variable {σ : Type} {settings : Settings}

namespace Document

variable {d : Document}

/-! ### What a new document consists of -/

section Fresh

variable (ids : IdSource σ) (settings : Settings) (kind : Kind) (s : σ)

@[simp] theorem kind_fresh : (fresh ids settings kind s).1.kind = kind := by
  cases kind <;> rfl

@[simp] theorem version_fresh : (fresh ids settings kind s).1.version = settings.startVersion := by
  cases kind <;> rfl

@[simp] theorem extra_fresh : (fresh ids settings kind s).1.extra = [] := by
  cases kind <;> rfl

theorem proper_extra_fresh : (Value.obj (fresh ids settings kind s).1.extra).Proper := by
  rw [extra_fresh]
  exact .obj .nil nofun

/-- Nothing but its version can speak against a new document: it has no scores, its target is zero,
and it has no fields that it does not know. -/
theorem loadable_fresh {others : Settings} (h : others.allows settings.startVersion = true) :
    (fresh ids settings kind s).1.Loadable others where
  scores := by
    rintro j hj a ha
    cases kind <;> cases hj
    simp at ha
  target := by
    rintro o ho
    cases kind <;> cases ho
    rfl
  version := by rwa [version_fresh]
  extra := by simp [Fields.names]

end Fresh

/-! ### Loading a document from its own value -/

theorem load_toValue (hp : (Value.obj d.extra).Proper) (h : d.Loadable settings) :
    load settings d.toValue = .ok d := by
  rw [toValue_eq_outline h.target]
  exact load_outline hp h

/-- A document that was loaded once is loaded again from its own value. -/
theorem load_toValue_of_load {v : Value} (hp : v.Proper) (h : load settings v = .ok d) :
    load settings d.toValue = .ok d :=
  load_toValue (proper_extra_of_load hp h) (loadable_of_load hp h)

/-- A document that is in order but for its version is refused for its version alone. -/
theorem load_toValue_of_version (hp : (Value.obj d.extra).Proper) (h : d.Loadable .standard)
    (hv : settings.allows d.version = false) :
    load settings d.toValue = .error (.invalid d.kind
      [⟨[.field "version"], .otherVersion d.version settings.allowedVersions⟩]) :=
  load_of_version (load_toValue hp h) hv

/-- A new document is loaded from its own value exactly if its version is allowed. -/
theorem load_fresh_iff (ids : IdSource σ) (kind : Kind) (s : σ) :
    load settings (fresh ids settings kind s).1.toValue = .ok (fresh ids settings kind s).1 ↔
      settings.allows settings.startVersion = true := by
  constructor
  · intro h
    simpa using version_of_load h
  · intro h
    exact load_toValue (proper_extra_fresh ids settings kind s)
      (loadable_fresh ids settings kind s h)

theorem load_fresh_of_version (ids : IdSource σ) (kind : Kind) (s : σ)
    (h : settings.allows settings.startVersion = false) :
    load settings (fresh ids settings kind s).1.toValue = .error (.invalid kind
      [⟨[.field "version"], .otherVersion settings.startVersion settings.allowedVersions⟩]) := by
  have hversion : settings.allows (fresh ids settings kind s).1.version = false := by
    rwa [version_fresh]
  simpa using load_toValue_of_version (proper_extra_fresh ids settings kind s)
    (loadable_fresh ids settings kind s rfl) hversion

end Document

namespace ServiceMap

/-- The documents of a map to which an outcome was added: the new outcome, or one from before. -/
theorem mem_documents_ensureOutcome {ids : IdSource σ} {m : ServiceMap} {s : σ} {d : Document}
    (h : d ∈ (m.ensureOutcome ids settings s).1.documents) :
    d ∈ m.documents ∨ d = (Document.fresh ids settings .outcome s).1 := by
  unfold ensureOutcome at h
  split at h
  case isTrue => exact .inl h
  case isFalse =>
    have hget := mem_documents.mp h
    rw [get?_insert] at hget
    split at hget
    · exact .inr (Option.some.inj hget).symm
    · exact .inl (mem_documents.mpr hget)

/-- What is created under settings that allow the version they give to new documents can be loaded
under them again. Every new document, of whatever kind and with whatever identifiers, is then loaded
from its own value as it is, and under all other settings it is refused, for its version alone. So a
new outcome document in a map whose documents were loaded, from proper values as those of every text
are, leaves a map whose documents all load again. -/
theorem fresh_loads_iff_allowed (settings : Settings) :
    (∀ (σ : Type) (ids : IdSource σ) (kind : Kind) (s : σ),
      (Document.load settings (Document.fresh ids settings kind s).1.toValue =
          .ok (Document.fresh ids settings kind s).1 ↔
        settings.allows settings.startVersion = true) ∧
      (settings.allows settings.startVersion = false →
        Document.load settings (Document.fresh ids settings kind s).1.toValue =
          .error (.invalid kind [⟨[.field "version"],
            .otherVersion settings.startVersion settings.allowedVersions⟩]))) ∧
    (settings.allows settings.startVersion = true →
      ∀ (σ : Type) (ids : IdSource σ) (m : ServiceMap) (s : σ),
        (∀ d ∈ m.documents, ∃ v : Value, v.Proper ∧ Document.load settings v = .ok d) →
        ∀ d ∈ (m.ensureOutcome ids settings s).1.documents,
          Document.load settings d.toValue = .ok d) := by
  refine ⟨fun σ ids kind s => ?_, fun h σ ids m s hm d hd => ?_⟩
  · exact ⟨Document.load_fresh_iff ids kind s, Document.load_fresh_of_version ids kind s⟩
  · rcases mem_documents_ensureOutcome hd with hold | rfl
    · obtain ⟨v, hv, hload⟩ := hm d hold
      exact Document.load_toValue_of_load hv hload
    · exact (Document.load_fresh_iff ids .outcome s).mpr h

/-- A blueprint that was made under settings with two versions gets an outcome document; other
settings refuse a new journey. -/
theorem fresh_loads_iff_allowed_outcome :
    let settings : Settings := ⟨["1.0", "2.0"], "2.0"⟩
    let other : Settings := ⟨["1.0"], "2.0"⟩
    let d := (Document.fresh IdSequence.source settings .blueprint (.start "a:b")).1
    let m := ServiceMap.empty.insert d
    settings.allows settings.startVersion = true ∧
      (∀ e ∈ (m.ensureOutcome IdSequence.source settings (.start "c")).1.documents,
        Document.load settings e.toValue = .ok e) ∧
      other.allows other.startVersion = false ∧
      Document.load other (Document.fresh IdSequence.source other .journey (.start "")).1.toValue =
        .error (.invalid .journey [⟨[.field "version"], .otherVersion "2.0" ["1.0"]⟩]) := by
  intro settings other d m
  have hd : d.toValue = .obj [("id", .str "sbp:document:a:b-0"), ("kind", .str "sbp"),
      ("lanes", .arr []), ("tasks", .arr []), ("version", .str "2.0")] := by
    decide +kernel
  have hproper : d.toValue.Proper := by
    rw [hd]
    refine .obj (by decide) ?_
    simp only [List.forall_mem_cons, Value.Sound.str, true_and]
    exact ⟨.arr nofun, .arr nofun, nofun⟩
  have hload : Document.load settings d.toValue = .ok d := by decide +kernel
  have hdocuments : ∀ e ∈ m.documents,
      ∃ v : Value, v.Proper ∧ Document.load settings v = .ok e := by
    have hm : m.documents = [d] := rfl
    rw [hm, List.forall_mem_singleton]
    exact ⟨_, hproper, hload⟩
  refine ⟨rfl, (fresh_loads_iff_allowed settings).2 rfl _ _ m _ hdocuments, by decide, ?_⟩
  exact ((fresh_loads_iff_allowed other).1 _ _ .journey _).2 (by decide)

/-- Settings that allow only other versions than the one for new documents are read without
complaint, from a text and as a restriction of the standard ones; a new document under them is
refused. -/
theorem fresh_refused :
    let settings : Settings := ⟨["2.0"], "1.0"⟩
    let d := (Document.fresh IdSequence.source settings .journey (.start "t")).1
    Settings.ofToml? "supported_versions = [\"2.0\"]" = some settings ∧
      Settings.standard.allowOnly ["2.0"] = settings ∧
      Document.load settings d.toValue ≠ .ok d := by
  decide +kernel

end ServiceMap

end ServiceMaps
