import ServiceMaps.Proofs.Items

/-!
A text with a single document. The reader of one document and the reader of a service map see the
same value and load it in the same way, so that they succeed together and fail with the same error.
They differ where the first must have a document and the second need not: on a value that names no
kind. They also differ in what they say of a text that cannot be read, and a text of several
documents is only for the second.
-/
namespace ServiceMaps

namespace Yaml

/-- Every text has a document, if only an empty one. -/
theorem nodes_ne_nil (text : String) : nodes text ≠ [] := by
  unfold nodes
  match tokens text with
  | [] => simp
  | t :: rest =>
    simp only [Stream.nodes, if_true]
    cases Stream.document? true (t :: rest) <;> simp

/-- What comes of the first of several documents decides whether the others are looked at. -/
theorem documents_of_several {text : String} (h : 1 < (nodes text).length) :
    documents text = [none] ∨ ∃ v w rest, documents text = some v :: w :: rest := by
  unfold documents data
  match hn : nodes text with
  | [] => simp [hn] at h
  | [_] => simp [hn] at h
  | first :: second :: rest =>
    cases hf : first.bind Datum.ofDocument? with
    | none =>
      left
      simp [hf, Stream.untilNone]
    | some d =>
      right
      cases hs : second.bind Datum.ofDocument? with
      | none => exact ⟨d.toValue, none, [], by simp [hf, hs, Stream.untilNone]⟩
      | some e => exact ⟨d.toValue, some e.toValue, _, by simp [hf, hs, Stream.untilNone]; rfl⟩

/-- A text holds one document that can be read, one that cannot, or several. -/
theorem documents_cases (text : String) :
    (∃ v, documents text = [some v]) ∨ documents text = [none] ∨ 1 < (nodes text).length := by
  match hn : nodes text with
  | [] => exact absurd hn (nodes_ne_nil text)
  | _ :: _ :: _ => simp
  | [n] =>
    cases hd : n.bind Datum.ofDocument? with
    | none => simp [documents, data, hn, hd, Stream.untilNone]
    | some d => simp [documents, data, hn, hd, Stream.untilNone]

end Yaml

namespace Document

variable {settings : Settings} {text : String}

theorem ofText_of_single {v : Value} (h : Yaml.documents text = [some v]) :
    ofText settings .yaml text = load settings v := by
  simp [ofText, Value.ofText, h, bind, Except.bind]

theorem ofText_of_unreadable (h : Yaml.documents text = [none]) :
    ofText settings .yaml text = .error .unreadable := by
  simp [ofText, Value.ofText, h, bind, Except.bind]

theorem ofText_of_several {v : Value} {w : Option Value} {rest : List (Option Value)}
    (h : Yaml.documents text = some v :: w :: rest) :
    ofText settings .yaml text = .error .severalDocuments := by
  simp [ofText, Value.ofText, h, bind, Except.bind]

/-- A value that names no kind is not loaded. -/
theorem load_of_stray {v : Value} (h : ServiceMap.namesKind v = false) :
    load settings v = .error (.unknownKind "(missing)") := by
  have hget : v.get? "kind" = none := by simpa [ServiceMap.namesKind] using h
  refine load_of_kindless settings ?_
  rw [namedKind, hget]

/-- A text is loaded as a document only if that document is all that it holds. -/
theorem single_of_ofText {d : Document} (h : ofText settings .yaml text = .ok d) :
    ∃ v, Yaml.documents text = [some v] ∧ ServiceMap.namesKind v = true ∧
      load settings v = .ok d := by
  rcases Yaml.documents_cases text with ⟨v, hv⟩ | hnone | hseveral
  · rw [ofText_of_single hv] at h
    refine ⟨v, hv, ?_, h⟩
    by_contra hn
    rw [load_of_stray (by simpa using hn)] at h
    cases h
  · rw [ofText_of_unreadable hnone] at h
    cases h
  · rcases Yaml.documents_of_several hseveral with hnone | ⟨v, w, rest, hsome⟩
    · rw [ofText_of_unreadable hnone] at h
      cases h
    · rw [ofText_of_several hsome] at h
      cases h

end Document

namespace ServiceMap

open Document

variable {settings : Settings} {text : String}

theorem documents_insert_empty (d : Document) : (empty.insert d).documents = [d] := by
  cases d <;> rfl

/-- A map is known by its only document. -/
theorem documents_eq_singleton {s : ServiceMap} {d : Document} :
    s.documents = [d] ↔ s = empty.insert d := by
  constructor
  · intro h
    apply ext_get?
    intro k
    -- what a map has of a kind is read off its documents
    have hk := filter_documents s k
    rw [h, ← documents_insert_empty d, filter_documents] at hk
    simpa using (congrArg List.head? hk).symm
  · rintro rfl
    exact documents_insert_empty d

/-- A single document that names a kind is the whole map. -/
theorem ofText_of_single {v : Value} (h : Yaml.documents text = [some v])
    (hv : namesKind v = true) :
    ofText settings text = (empty.insert ·) <$> load settings v := by
  rw [ofText, ofItems, h, addItems, addItem, if_pos hv]
  cases load settings v <;> rfl

theorem ofText_of_stray {v : Value} (h : Yaml.documents text = [some v])
    (hv : namesKind v = false) : ofText settings text = .ok empty := by
  rw [ofText, ofItems, h, addItems, addItem, hv]
  rfl

theorem ofText_of_unreadable (h : Yaml.documents text = [none]) :
    ofText settings text = .error (.unreadableDocument 0) := by
  rw [ofText, ofItems, h]
  rfl

/-- Reading a text as one document and reading it as a map agree.

A text that is read as a document is read as the map with that document only. On a single document
that names a kind, one succeeds where the other does and both fail with the same error, which is
about the kind or the form of the document. A single document that names none is passed over for a
map and missed for a document, and where it cannot be read each reader has its own error for that.
A text of several documents is never read as a document, whatever they are. -/
theorem ofText_agrees_document (settings : Settings) (text : String) :
    (∀ d, Document.ofText settings .yaml text = .ok d →
      ∃ s, ofText settings text = .ok s ∧ s.documents = [d]) ∧
    (∀ v, Yaml.documents text = [some v] → namesKind v = true →
      (∀ s, ofText settings text = .ok s ↔
        ∃ d, Document.ofText settings .yaml text = .ok d ∧ s.documents = [d]) ∧
      (∀ e, ofText settings text = .error e ↔ Document.ofText settings .yaml text = .error e) ∧
      (∀ e, ofText settings text = .error e →
        (∃ kind, e = .unknownKind kind) ∨ ∃ k flaws, e = .invalid k flaws)) ∧
    (∀ v, Yaml.documents text = [some v] → namesKind v = false →
      ofText settings text = .ok empty ∧
      Document.ofText settings .yaml text = .error (.unknownKind "(missing)")) ∧
    (Yaml.documents text = [none] →
      ofText settings text = .error (.unreadableDocument 0) ∧
      Document.ofText settings .yaml text = .error .unreadable) ∧
    (1 < (Yaml.nodes text).length →
      Document.ofText settings .yaml text = .error .severalDocuments ∨
      Document.ofText settings .yaml text = .error .unreadable) := by
  refine ⟨?_, ?_, ?_, ?_, ?_⟩
  · intro d h
    obtain ⟨v, hv, hn, hl⟩ := single_of_ofText h
    refine ⟨empty.insert d, ?_, documents_insert_empty d⟩
    rw [ofText_of_single hv hn, hl]
    rfl
  · intro v hv hn
    rw [ofText_of_single hv hn, Document.ofText_of_single hv]
    rcases load_cases settings v with ⟨kind, -, hl⟩ | ⟨k, -, hl⟩ | ⟨d, -, -, hl⟩
    · rw [hl]
      simp
    · rw [hl]
      simp
    · rw [hl]
      refine ⟨fun s => ?_, ?_, ?_⟩
      · simp only [documents_eq_singleton]
        simp [eq_comm]
      · simp
      · simp
  · intro v hv hn
    rw [ofText_of_stray hv hn, Document.ofText_of_single hv, load_of_stray hn]
    exact ⟨rfl, rfl⟩
  · intro h
    exact ⟨ofText_of_unreadable h, Document.ofText_of_unreadable h⟩
  · intro h
    rcases Yaml.documents_of_several h with hnone | ⟨v, w, rest, hsome⟩
    · exact .inr (Document.ofText_of_unreadable hnone)
    · exact .inl (Document.ofText_of_several hsome)

/-- A blueprint, a kind that there is not, a number, a text that breaks off, and two documents of
which the second does. -/
theorem ofText_agrees_document_readings :
    (∃ d s, Document.ofText .standard .yaml
        "kind: sbp\nversion: '1'\nid: b\nlanes: []\ntasks: []\n" = .ok d ∧
      ofText .standard "kind: sbp\nversion: '1'\nid: b\nlanes: []\ntasks: []\n" = .ok s ∧
      s.documents = [d]) ∧
    (∃ e, Document.ofText .standard .yaml "kind: map\n" = .error e ∧
      ofText .standard "kind: map\n" = .error e) ∧
    ofText .standard "5" = .ok empty ∧
    ofText .standard "[" = .error (.unreadableDocument 0) ∧
    ∃ e, Document.ofText .standard .yaml "kind: sbp\n---\n[" = .error e := by
  refine ⟨?_, ?_, ?_, ?_, ?_⟩
  · have hv : Yaml.documents "kind: sbp\nversion: '1'\nid: b\nlanes: []\ntasks: []\n" =
        [some (.obj [("id", .str "b"), ("kind", .str "sbp"), ("lanes", .arr []),
          ("tasks", .arr []), ("version", .str "1")])] := by
      decide +kernel
    obtain ⟨d, -, -, hd⟩ := load_of_valid .standard (k := .blueprint)
      (v := .obj [("id", .str "b"), ("kind", .str "sbp"), ("lanes", .arr []),
        ("tasks", .arr []), ("version", .str "1")]) (by decide +kernel)
    rw [← Document.ofText_of_single hv] at hd
    obtain ⟨s, hs, hsd⟩ := (ofText_agrees_document .standard _).1 d hd
    exact ⟨d, s, hd, hs, hsd⟩
  · have hv : Yaml.documents "kind: map\n" = [some (.obj [("kind", .str "map")])] := by
      decide +kernel
    have he : Document.ofText .standard .yaml "kind: map\n" = .error (.unknownKind "map") := by
      rw [Document.ofText_of_single hv]
      rfl
    exact ⟨_, he, (((ofText_agrees_document .standard _).2.1 _ hv rfl).2.1 _).mpr he⟩
  · have hv : Yaml.documents "5" = [some (.int 5)] := by decide +kernel
    exact ((ofText_agrees_document .standard _).2.2.1 _ hv rfl).1
  · exact ((ofText_agrees_document .standard _).2.2.2.1 (by decide +kernel)).1
  · rcases (ofText_agrees_document .standard "kind: sbp\n---\n[").2.2.2.2 (by decide +kernel)
      with h | h
    · exact ⟨_, h⟩
    · exact ⟨_, h⟩

end ServiceMap

end ServiceMaps
