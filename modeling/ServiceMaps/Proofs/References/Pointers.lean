import Mathlib.Data.List.Basic
import ServiceMaps.References.Within

/-!
References as data. Every reference points from a part into a collection; it misses if the
document with that collection is present and gives no such identifier there. The checks report
exactly the references that miss, each where it stands.
-/
namespace ServiceMaps

/-- The kind of document that has a collection. -/
def Collection.kind : Collection → Kind
  | .journey | .phase | .journeyAction => .journey
  | .blueprint | .lane | .task => .blueprint
  | .outcome | .goal | .factor | .indicator => .outcome
  | .enablement | .enablementOutcome | .enablementAction | .skill | .knowledge | .tool =>
    .enablement

/-- A reference: the part that holds it, and the collection and the identifier it points to. -/
structure Pointer where
  source : Collection
  id : String
  target : Collection
  names : Option String
  deriving DecidableEq, Repr

/-- Whether a reference names an identifier that is not in its collection, though the document of
the collection is present. -/
def Pointer.misses (s : ServiceMap) (p : Pointer) : Bool :=
  p.names.any fun id => s.contains p.target.kind && !s.entries.contains (p.target, id)

/-- The reference that a fault is about. -/
def Fault.pointer (f : Fault) : Pointer :=
  ⟨f.sourceCollection, f.sourceId, f.targetCollection, some f.targetId⟩

theorem kind_of_mem_entries {d : Document} {e : Entry} (h : e ∈ d.entries) : e.1.kind = d.kind := by
  cases d <;> simp only [Document.entries, List.mem_append, List.mem_cons, List.mem_map,
    List.not_mem_nil, or_false] at h
  case journey j =>
    obtain (rfl | ⟨p, -, rfl⟩) | ⟨a, -, rfl⟩ := h <;> rfl
  case blueprint b =>
    obtain (rfl | ⟨l, -, rfl⟩) | ⟨t, -, rfl⟩ := h <;> rfl
  case outcome o =>
    obtain rfl | rfl | rfl | rfl := h <;> rfl
  case enablement e =>
    obtain ((((rfl | ⟨o, -, rfl⟩) | ⟨a, -, rfl⟩) | ⟨k, -, rfl⟩) | ⟨r, -, rfl⟩) | ⟨t, -, rfl⟩ := h
      <;> rfl

namespace ServiceMap

variable {s : ServiceMap}

/-- An identifier stands in a collection of a map if it does so in the collection's document. -/
theorem mem_entries {e : Entry} :
    e ∈ s.entries ↔ ∃ d, s.get? e.1.kind = some d ∧ e ∈ d.entries := by
  simp only [entries, List.mem_flatMap, mem_documents]
  constructor
  · rintro ⟨d, hd, he⟩
    exact ⟨d, kind_of_mem_entries he ▸ hd, he⟩
  · rintro ⟨d, hd, he⟩
    exact ⟨d, kind_of_mem_entries he ▸ hd, he⟩

theorem mem_entries_of_get? {c : Collection} {d : Document} (h : s.get? c.kind = some d)
    {id : String} : (c, id) ∈ s.entries ↔ (c, id) ∈ d.entries := by
  rw [mem_entries, h]
  simp

end ServiceMap

namespace Pointer

variable {s : ServiceMap} {p : Pointer}

theorem misses_of_get? {d : Document} (h : s.get? p.target.kind = some d) :
    p.misses s = p.names.any fun id => !d.entries.contains (p.target, id) := by
  simp only [misses, ServiceMap.contains, h, Option.isSome_some, Bool.true_and,
    List.contains_eq_mem, ServiceMap.mem_entries_of_get? h]

theorem misses_of_absent (h : s.get? p.target.kind = none) : p.misses s = false := by
  simp [misses, ServiceMap.contains, h]

theorem misses_eq_false_iff :
    p.misses s = false ↔
      ∀ id ∈ p.names, s.contains p.target.kind = true → (p.target, id) ∈ s.entries := by
  obtain ⟨source, id, target, names⟩ := p
  cases names <;> simp [misses]

end Pointer

namespace References

variable {s : ServiceMap} {d : Document}

/-- A reference is reported if it misses. -/
theorem map_unresolved {r : Reference} {id name target : String} {ids : List String}
    (hd : s.get? r.target.kind = some d) (hids : ∀ x, x ∈ ids ↔ (r.target, x) ∈ d.entries) :
    (unresolved r id name target ids).map Fault.pointer =
      [⟨r.source, id, r.target, some target⟩].filter (Pointer.misses s) := by
  by_cases h : target ∈ ids
  · have hmiss : Pointer.misses s ⟨r.source, id, r.target, some target⟩ = false := by
      simp [Pointer.misses_of_get? (p := ⟨r.source, id, r.target, some target⟩) hd,
        (hids target).mp h]
    simp [unresolved, h, hmiss]
  · have hmiss : Pointer.misses s ⟨r.source, id, r.target, some target⟩ = true := by
      simp [Pointer.misses_of_get? (p := ⟨r.source, id, r.target, some target⟩) hd,
        mt (hids target).mpr h]
    simp [unresolved, h, hmiss, Fault.pointer, Fault.sourceCollection, Fault.sourceId,
      Fault.targetCollection, Fault.targetId]

theorem isDuplicate_of_mem_unresolved {r : Reference} {id name target : String}
    {ids : List String} {f : Fault} (h : f ∈ unresolved r id name target ids) :
    f.isDuplicate = false := by
  unfold unresolved at h
  split at h
  · simp at h
  · rw [List.mem_singleton.mp h]
    rfl

/-- A list of checks reports what each of them reports, in order. -/
theorem map_flatMap_eq_filter {α : Type} {check : α → List Fault} {pointers : α → List Pointer}
    {reported : Pointer → Bool} {l : List α}
    (h : ∀ a ∈ l, (check a).map Fault.pointer = (pointers a).filter reported) :
    (l.flatMap check).map Fault.pointer = (l.flatMap pointers).filter reported := by
  rw [List.map_flatMap, List.filter_flatMap]
  exact List.flatMap_congr h

theorem map_flatMap_eq_filter_map {α : Type} {check : α → List Fault} {pointer : α → Pointer}
    {reported : Pointer → Bool} {l : List α}
    (h : ∀ a ∈ l, (check a).map Fault.pointer = [pointer a].filter reported) :
    (l.flatMap check).map Fault.pointer = (l.map pointer).filter reported := by
  have hmap : l.map pointer = l.flatMap fun a => [pointer a] := List.map_eq_flatMap
  rw [hmap]
  exact map_flatMap_eq_filter h

end References

end ServiceMaps
