import ServiceMaps.Document.Basic

/-!
A service map: the documents that describe a service, at most one of each kind.
-/
namespace ServiceMaps

structure ServiceMap where
  journey : Option JourneyMap
  blueprint : Option Blueprint
  outcome : Option Outcome
  enablement : Option EnablementMap
  deriving DecidableEq

namespace ServiceMap

def empty : ServiceMap := ⟨none, none, none, none⟩

instance : Inhabited ServiceMap := ⟨empty⟩

def get? (s : ServiceMap) : Kind → Option Document
  | .journey => s.journey.map .journey
  | .blueprint => s.blueprint.map .blueprint
  | .outcome => s.outcome.map .outcome
  | .enablement => s.enablement.map .enablement

def contains (s : ServiceMap) (k : Kind) : Bool := (s.get? k).isSome

/-- The documents in the order of kinds. -/
def documents (s : ServiceMap) : List Document := Kind.all.filterMap s.get?

def size (s : ServiceMap) : Nat := s.documents.length

/-- Puts a document in the place of its kind; one that is there gives way. -/
def insert (d : Document) (s : ServiceMap) : ServiceMap :=
  match d with
  | .journey d => { s with journey := some d }
  | .blueprint d => { s with blueprint := some d }
  | .outcome d => { s with outcome := some d }
  | .enablement d => { s with enablement := some d }

/-- Takes a document out. -/
def erase (k : Kind) (s : ServiceMap) : ServiceMap :=
  match k with
  | .journey => { s with journey := none }
  | .blueprint => { s with blueprint := none }
  | .outcome => { s with outcome := none }
  | .enablement => { s with enablement := none }

/-- Equality of two documents that may be absent. -/
def sameOption {α : Type} (same : α → α → Bool) : Option α → Option α → Bool
  | none, none => true
  | some a, some b => same a b
  | _, _ => false

/-- Equality of service maps, with floating numbers compared as numbers. -/
def same (a b : ServiceMap) : Bool :=
  sameOption JourneyMap.same a.journey b.journey
    && sameOption Blueprint.same a.blueprint b.blueprint
    && sameOption Outcome.same a.outcome b.outcome
    && sameOption EnablementMap.same a.enablement b.enablement

theorem get?_insert (d : Document) (s : ServiceMap) (k : Kind) :
    (s.insert d).get? k = if k = d.kind then some d else s.get? k := by
  cases d <;> cases k <;> rfl

theorem get?_erase (k l : Kind) (s : ServiceMap) :
    (s.erase k).get? l = if l = k then none else s.get? l := by
  cases k <;> cases l <;> rfl

@[simp] theorem get?_empty (k : Kind) : empty.get? k = none := by cases k <;> rfl

theorem ext_get? {a b : ServiceMap} (h : ∀ k, a.get? k = b.get? k) : a = b := by
  obtain ⟨j, p, o, e⟩ := a
  obtain ⟨j', p', o', e'⟩ := b
  have hj := h .journey
  have hp := h .blueprint
  have ho := h .outcome
  have he := h .enablement
  simp only [get?] at hj hp ho he
  congr
  · cases j <;> cases j' <;> simp_all
  · cases p <;> cases p' <;> simp_all
  · cases o <;> cases o' <;> simp_all
  · cases e <;> cases e' <;> simp_all

/-- The documents of one kind. -/
theorem filter_documents (s : ServiceMap) (k : Kind) :
    s.documents.filter (fun d => d.kind = k) = (s.get? k).toList := by
  obtain ⟨j, b, o, e⟩ := s
  cases j <;> cases b <;> cases o <;> cases e <;> cases k <;> rfl

theorem mem_documents {s : ServiceMap} {d : Document} :
    d ∈ s.documents ↔ s.get? d.kind = some d := by
  have hfilter : d ∈ s.documents.filter (fun e => e.kind = d.kind) ↔ d ∈ s.documents := by
    simp [List.mem_filter]
  rw [← hfilter, filter_documents, Option.mem_toList]

end ServiceMap

end ServiceMaps
