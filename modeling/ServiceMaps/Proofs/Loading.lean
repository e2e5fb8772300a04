import ServiceMaps.Loading
import ServiceMaps.Proofs.Acceptance

/-!
Loading and inspection agree on every value. Loading fails exactly where inspection finds a flaw,
and with what inspection found; a value that passes inspection is always read, so the failure that
is kept for values which pass and cannot be read never occurs.
-/
namespace ServiceMaps

namespace Document

variable (settings : Settings)

/-- The value names no kind of document. -/
def Kindless (v : Value) : Prop := ∀ k : Kind, v.get? "kind" ≠ some (.str k.text)

theorem kindless_iff (v : Value) : Kindless v ↔ ∃ text, namedKind v = .error text := by
  rcases hk : namedKind v with text | k
  · refine iff_of_true (fun k h => ?_) ⟨text, rfl⟩
    rw [(namedKind_eq_ok_iff v k).mpr h] at hk
    simp at hk
  · refine iff_of_false (fun h => h k ((namedKind_eq_ok_iff v k).mp hk)) ?_
    rintro ⟨text, h⟩
    simp at h

theorem valid_inspectNamed {v : Value} (h : (inspectNamed settings v).valid = true) :
    ∃ k, namedKind v = .ok k ∧ (inspect settings k v).valid = true := by
  unfold inspectNamed at h
  rcases hk : namedKind v with text | k
  · simp [hk, Report.valid] at h
  · exact ⟨k, rfl, by simpa [hk] using h⟩

theorem inspectNamed_of_kind {v : Value} {k : Kind} (h : namedKind v = .ok k) :
    inspectNamed settings v = inspect settings k v := by
  rw [inspectNamed, h]

/-- What passes inspection for a kind is loaded as a document of that kind. -/
theorem load_of_valid {v : Value} {k : Kind} (h : (inspect settings k v).valid = true) :
    ∃ d, d.kind = k ∧ ofValue v = .ok d ∧ load settings v = .ok d := by
  obtain ⟨hc, -⟩ := (inspect_valid_iff settings k v).mp h
  have hk := namedKind_of_conforms hc
  obtain ⟨fields, rfl, hm⟩ := hc
  obtain ⟨d, hd, hdk, -⟩ := ofValue_of_conforms hm
  refine ⟨d, hdk, hd, ?_⟩
  simp only [load, hk, h, hd, if_true, Except.mapError]

theorem load_of_invalid {v : Value} {k : Kind} (hk : namedKind v = .ok k)
    (h : (inspect settings k v).valid = false) :
    load settings v = .error (.invalid k (inspect settings k v).flaws) := by
  simp only [load, hk, h, Bool.false_eq_true, if_false]

theorem load_of_kindless {v : Value} {text : String} (hk : namedKind v = .error text) :
    load settings v = .error (.unknownKind text) := by
  rw [load, hk]

/-- Loading ends in one of three ways. -/
theorem load_cases (v : Value) :
    (∃ text, namedKind v = .error text ∧ load settings v = .error (.unknownKind text)) ∨
    (∃ k, namedKind v = .ok k ∧ load settings v =
      .error (.invalid k (inspect settings k v).flaws)) ∨
    (∃ d, (inspect settings d.kind v).valid = true ∧ ofValue v = .ok d ∧
      load settings v = .ok d) := by
  rcases hk : namedKind v with text | k
  · exact .inl ⟨text, rfl, load_of_kindless settings hk⟩
  · rcases hv : (inspect settings k v).valid with _ | _
    · exact .inr (.inl ⟨k, rfl, load_of_invalid settings hk hv⟩)
    · obtain ⟨d, rfl, hd, hl⟩ := load_of_valid settings hv
      exact .inr (.inr ⟨d, hv, hd, hl⟩)

/-- A document that is loaded passed inspection for its kind. -/
theorem valid_of_load {v : Value} {d : Document} (h : load settings v = .ok d) :
    (inspect settings d.kind v).valid = true ∧ ofValue v = .ok d := by
  rcases load_cases settings v with ⟨text, -, hl⟩ | ⟨k, -, hl⟩ | ⟨e, hv, he, hl⟩
  · simp [hl] at h
  · simp [hl] at h
  · obtain rfl : e = d := by simpa [hl] using h
    exact ⟨hv, he⟩

/-- A document that is loaded is of the kind that the value names. -/
theorem namedKind_of_load {v : Value} {d : Document} (h : load settings v = .ok d) :
    namedKind v = .ok d.kind :=
  namedKind_of_conforms ((inspect_valid_iff _ _ _).mp (valid_of_load settings h).1).1

/-- Loading a value and inspecting it say the same. The value is loaded exactly if the report is
clean; without a known kind the only flaw is at `kind` and says what the error says; with a kind
the error lists the flaws of the report. A value that passes for a kind is always read, and it
passes for no other kind. -/
theorem load_agrees_inspectNamed (v : Value) :
    ((∃ d, load settings v = .ok d) ↔ (inspectNamed settings v).valid = true) ∧
    (Kindless v → ∃ text flaw, load settings v = .error (.unknownKind text) ∧
      inspectNamed settings v = ⟨none, [flaw]⟩ ∧ flaw.path = [.field "kind"] ∧
      (LoadError.unknownKind text).message? = some flaw.problem.message) ∧
    (∀ k : Kind, v.get? "kind" = some (.str k.text) →
      (inspectNamed settings v).kind = some k ∧
      ((inspectNamed settings v).valid = false →
        load settings v = .error (.invalid k (inspectNamed settings v).flaws))) ∧
    (∀ k, (inspect settings k v).valid = true →
      ∃ d, d.kind = k ∧ ofValue v = .ok d ∧ load settings v = .ok d) ∧
    (∀ m, load settings v ≠ .error (.mismatch m)) ∧
    (∀ k l, (inspect settings k v).valid = true → (inspect settings l v).valid = true → k = l) := by
  refine ⟨⟨?_, ?_⟩, ?_, ?_, fun k => load_of_valid settings, ?_, ?_⟩
  · rintro ⟨d, hd⟩
    obtain ⟨hv, -⟩ := valid_of_load settings hd
    have hk := namedKind_of_conforms ((inspect_valid_iff _ _ _).mp hv).1
    rwa [inspectNamed_of_kind settings hk]
  · intro h
    obtain ⟨k, -, hv⟩ := valid_inspectNamed settings h
    obtain ⟨d, -, -, hd⟩ := load_of_valid settings hv
    exact ⟨d, hd⟩
  · intro h
    obtain ⟨text, hk⟩ := (kindless_iff v).mp h
    refine ⟨text, ⟨[.field "kind"], .unknownKind text⟩, load_of_kindless settings hk, ?_, rfl, rfl⟩
    rw [inspectNamed, hk]
  · intro k h
    have hk := (namedKind_eq_ok_iff v k).mpr h
    rw [inspectNamed_of_kind settings hk]
    exact ⟨rfl, load_of_invalid settings hk⟩
  · intro m h
    rcases load_cases settings v with ⟨text, -, hl⟩ | ⟨k, -, hl⟩ | ⟨d, -, -, hl⟩ <;> simp [hl] at h
  · intro k l hk hl
    have h := namedKind_of_conforms ((inspect_valid_iff _ _ _).mp hk).1
    rw [namedKind_of_conforms ((inspect_valid_iff _ _ _).mp hl).1] at h
    exact (Except.ok.inj h).symm

end Document

end ServiceMaps
